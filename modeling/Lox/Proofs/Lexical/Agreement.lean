import Lox.Proofs.Lexical.Steps
import Lox.Session

/-!
# Distances implement lexical scope

A resolved program runs alike on a machine with frames and distances and on a
machine with cells: the two yield values that correspond, print the same, fail
with the same errors, and the first is never at fault. The proof is by induction
on the bound of the first run; what a call does is stated for any way to execute
the statements of a body.
-/

namespace Lox

open Layout

/-- Ends of statements that correspond. What is promised of the map for the next
statement is a parameter. -/
inductive FlowRel (table : Table) (P : Layout → Locals → Prop) (w : Layout) :
    Flow → Lexical.Outcome → Prop where
  /-- Both go on, and the map is as promised. -/
  | next {locals : Locals} (h : P w locals) : FlowRel table P w .normal (.next locals)
  /-- Both end the call in progress with values that correspond. -/
  | returned {v : Value} {v' : Value Locals} (h : ValueRel table w v v') :
      FlowRel table P w (.returned v) (.returned v')

/-- Two ways to execute statements that match on resolved ones. -/
def Executes (table : Table) (ex : Stmt → Eval Flow)
    (ex' : Locals → Stmt → Lexical Lexical.Outcome) : Prop :=
  ∀ {K w Γ env locals s}, K.Within table → Stands w Γ env locals → s.Resolved K Γ →
    Sim table w env (Grows env.innermost w) (FlowRel table fun w' => Stands w' (Γ.after s) env)
      (ex s) (ex' locals s)

/-- Two ways to evaluate expressions that match on resolved ones. -/
def Evaluates (table : Table) (ev : Expr → Eval Value)
    (ev' : Locals → Expr → Lexical (Value Locals)) : Prop :=
  ∀ {K w Γ env locals e}, K.Within table → Covers w Γ env locals → e.Resolved K Γ →
    Sim table w env (Grows 0 w) (ValueRel table) (ev e) (ev' locals e)

/-! ### Bodies and calls -/

section Bodies

variable {table : Table} {K : Known} {w : Layout} {Γ : Context} {env : Env} {locals : Locals}
  {ex : Stmt → Eval Flow} {ex' : Locals → Stmt → Lexical Lexical.Outcome}

/-- Statements that run one after the other match; each one leaves the map that the next
one runs in. -/
theorem sim_executeAll (hex : Executes table ex ex') (hK : K.Within table)
    (hst : Stands w Γ env locals) {ss : List Stmt} (hss : Stmt.ResolvedList K Γ ss) :
    Sim table w env (Grows env.innermost w) (FlowRel table fun _ _ => True)
      (Eval.executeAll ex ss) (Lexical.executeAll ex' locals ss) := by
  induction ss generalizing w Γ locals with
  | nil => exact .pure (.refl _ _) (.next trivial)
  | cons s rest ih =>
    refine (hex hK hst hss.1).bind ?_
    intro w' flow outcome hw' hflow
    cases hflow with
    | next hst' => exact (ih hst' hss.2).after hw'
    | returned hv => exact .pure hw' (.returned hv)

/-- A body runs in a new frame; of the frames that were there none gets a name. -/
theorem sim_body (hex : Executes table ex ex') (hK : K.Within table) {w' : Layout}
    {f : Nat} {rest : Env} (hst : Stands w' Γ (f :: rest) locals) (hw' : Grows 0 w w')
    (hf : w.frames ≤ f) {ss : List Stmt} (hss : Stmt.ResolvedList K Γ ss) :
    Sim table w' env (Grows 0 w) (FlowRel table fun _ _ => True)
      (Eval.inEnv (f :: rest) (Eval.executeAll ex ss)) (Lexical.executeAll ex' locals ss) := by
  refine ((sim_executeAll hex hK hst hss).weaken ?_ fun _ _ _ _ h => h).inEnv
  intro w'' hw''
  exact hw'.inside hw'' hf

/-- A frame without names, as at the start of a block. -/
theorem Stands.enter {w' : Layout} (hcovers : Covers w' Γ env locals) {f : Nat}
    (hf : 0 < f ∧ f < w'.frames) (hempty : ∀ x, w'.cell f x = none) :
    Stands w' (Γ.enter []) (f :: env) (some (locals.getD [])) := by
  refine ⟨(hcovers.enter f).nested, nofun, fun _ => ⟨f, env, _, rfl, rfl, hf, fun {x c} hc => ?_⟩⟩
  rw [hempty x] at hc
  cases hc

/-- A frame that was just made has no cells. -/
theorem cell_push_self (w : Layout) (x : String) : w.push.cell w.frames x = none := by
  cases hc : w.push.cell w.frames x with
  | none => rfl
  | some c => exact absurd (w.bounds hc).2.1 (Nat.lt_irrefl _)

/-- A block matches: its frame is new, and the map of the block is left behind it. -/
theorem sim_block (hex : Executes table ex ex') (hK : K.Within table)
    (hst : Stands w Γ env locals) {ss : List Stmt} (hss : Stmt.ResolvedList K (Γ.enter []) ss) :
    Sim table w env (Grows 0 w) (FlowRel table fun w' => Stands w' Γ env)
      (Eval.newFrame env [] >>= fun inner => Eval.inEnv inner (Eval.executeAll ex ss))
      (do
        let outcome ← Lexical.executeAll ex' (some (locals.getD [])) ss
        return outcome.outside locals) := by
  refine fun m l henv hrel => ?_
  have hinner := Stands.enter (hst.toCovers.grows (Grows.push w))
    ⟨hrel.positive, Nat.lt_succ_self _⟩ (cell_push_self w)
  have hbody : Sim table w.push env _ _ _ _ :=
    sim_body hex hK hinner (Grows.push w) (Nat.le_refl _) hss
  have hleft : (Eval.newFrame env [] >>= fun inner => Eval.inEnv inner (Eval.executeAll ex ss)) m =
      (Eval.inEnv (w.frames :: env) (Eval.executeAll ex ss) >>= Pure.pure)
        { m with store := (m.store.newFrame env []).2 } := by
    rw [bind_pure, ← hrel.frames]
    rfl
  rw [hleft]
  refine (hbody.bind ?_) _ l henv (hrel.newFrame env [])
  intro w' flow outcome hw' hflow
  cases hflow with
  | next _ => exact .pure hw' (.next (hst.grows hw'))
  | returned hv => exact .pure hw' (.returned hv)

end Bodies

/-! ### Calls -/

section Calls

variable {table : Table} {K : Known} {w : Layout} {Γ : Context} {env : Env} {locals : Locals}
  {ex : Stmt → Eval Flow} {ex' : Locals → Stmt → Lexical Lexical.Outcome}

/-- The parameters of a call are bound in a frame already; each gets a cell. -/
theorem bindAll_related {m : Machine} {l : LexicalMachine} {f : Nat} {rest : Env} {scope : Scope}
    {scopes : List Scope} {b : Body} {e : Enclosing} {params : List Name} {vs : List Value}
    {vs' : List (Value Locals)} (hrel : Related table w m l) (hf : 0 < f ∧ f < w.frames)
    (hvs : List.Forall₂ (ValueRel table w) vs vs') (hlen : params.length = vs.length)
    (hdistinct : (params.map (·.text)).Nodup) (hplain : ∀ name ∈ params, IsPlain name.text)
    (hget : ∀ x v, (x, v) ∈ (params.map (·.text)).zip vs → (m.store.frame f).get? x = some v)
    (hfree : ∀ name ∈ params, w.cell f name.text = none)
    (hcovers : Covers w ⟨scope :: scopes, b, e⟩ (f :: rest) locals) :
    ∃ w' names l',
      Lexical.bindAll locals ((params.map (·.text)).zip vs') l = .ok (some names) l' ∧
      Grows f w w' ∧ Related table w' m l' ∧
      Covers w' ⟨params.foldl (fun scope name => scope.define name.text) scope :: scopes, b, e⟩
        (f :: rest) (some names) ∧
      ∀ x c, w'.cell f x = some c → w.cell f x = some c ∨ x ∈ params.map (·.text) := by
  induction params generalizing w l locals scope vs vs' with
  | nil =>
    exact ⟨w, locals.getD [], l, rfl, .refl _ _, hrel, hcovers.nested, fun _ _ hc => .inl hc⟩
  | cons name params ih =>
    cases hvs with
    | nil => cases hlen
    | @cons v v' vs vs' hv hvs =>
      rw [List.map_cons, List.nodup_cons] at hdistinct
      have hx := hfree name (.head _)
      have hgrows := Grows.add w hf hx
      have hrel' := hrel.newCell hf hx (hget _ v (.head _))
        (fun h => absurd h (hplain name (.head _)).2) hv
      have hfree' : ∀ other ∈ params, (w.add f name.text hf).cell f other.text = none := by
        intro other hother
        rw [cell_add_of_ne w hf]
        · exact hfree other (.tail _ hother)
        · intro h
          rw [← h.2] at hdistinct
          exact hdistinct.1 (List.mem_map_of_mem hother)
      obtain ⟨w', names, l', hbind, hw', hrel'', hcovers', honly⟩ := ih hrel' hf
        (hvs.imp fun _ _ => ValueRel.grows hgrows) (Nat.succ.inj hlen) hdistinct.2
        (fun other hother => hplain other (.tail _ hother))
        (fun x u hu => hget x u (.tail _ hu)) hfree' (hcovers.define hf hx)
      refine ⟨w', names, l', ?_, hgrows.trans hw', hrel'', hcovers', fun x c hc => ?_⟩
      · rw [← hbind, ← hrel.cells]
        rfl
      · rcases honly x c hc with hold | hmem
        · by_cases hxname : x = name.text
          · exact .inr (hxname ▸ .head _)
          · rw [cell_add_of_ne w hf fun h => hxname h.2] at hold
            exact .inl hold
        · exact .inr (.tail _ hmem)

/-- The place at the start of a function body. -/
theorem enterBody {m : Machine} {l : LexicalMachine} {cenv : Env} {params : List Name}
    {vs : List Value} {vs' : List (Value Locals)} (b : Body) (hrel : Related table w m l)
    (hcovers : Covers w Γ cenv locals) (hvs : List.Forall₂ (ValueRel table w) vs vs')
    (hlen : params.length = vs.length) (hdistinct : (params.map (·.text)).Nodup)
    (hplain : ∀ name ∈ params, IsPlain name.text) :
    ∃ w' inside l',
      Lexical.bindAll locals ((params.map (·.text)).zip vs') l = .ok inside l' ∧ Grows 0 w w' ∧
      Related table w' { m with
        store := (m.store.newFrame cenv
          (Bindings.insertAll [] ((params.map (·.text)).zip vs))).2 } l' ∧
      Stands w' (Γ.inFunction b params) (w.frames :: cenv) inside := by
  have hf : 0 < w.frames ∧ w.frames < w.push.frames := ⟨hrel.positive, Nat.lt_succ_self _⟩
  have hnames : ((params.map (·.text)).zip vs).map (·.1) = params.map (·.text) :=
    List.map_fst_zip (Nat.le_of_eq (by rw [List.length_map, hlen]))
  have hget : ∀ x v, (x, v) ∈ (params.map (·.text)).zip vs →
      ((m.store.newFrame cenv (Bindings.insertAll []
        ((params.map (·.text)).zip vs))).2.frame w.frames).get? x = some v := by
    intro x v hx
    rw [← hrel.frames, Store.frame_newFrame_self]
    exact Bindings.get?_insertAll (by rw [hnames]; exact hdistinct) hx
  obtain ⟨w', names, l', hbind, hw', hrel', hcovers', honly⟩ := bindAll_related
    (hrel.newFrame cenv _) hf (hvs.imp fun _ _ => ValueRel.grows (Grows.push w)) hlen hdistinct
    hplain hget (fun name _ => cell_push_self w name.text)
    ((hcovers.grows (Grows.push w)).enter w.frames)
  refine ⟨w', some names, l', hbind, (Grows.push w).inside hw' (Nat.le_refl _), hrel',
    hcovers'.congr rfl, nofun, fun _ => ?_⟩
  refine ⟨w.frames, cenv, names, rfl, rfl, ⟨hf.1, Nat.lt_of_lt_of_le hf.2 hw'.frames⟩, ?_⟩
  intro x c hc
  change (Context.parameterScope params).has x = true
  rw [Context.has_parameterScope]
  rcases honly x c hc with hold | hmem
  · rw [cell_push_self] at hold
    cases hold
  · exact List.contains_iff_mem.2 hmem

/-- A call matches: its parameters are cells of a new frame, and its body was resolved
where it is closed. -/
theorem sim_invoke (hex : Executes table ex ex') {c : Closure} {d : Closure Locals}
    (hc : FunctionRel table w c d) {vs : List Value} {vs' : List (Value Locals)}
    (hvs : List.Forall₂ (ValueRel table w) vs vs') (hlen : vs.length = c.arity) :
    Sim table w env (Grows 0 w) (ValueRel table) (Eval.invoke ex c vs)
      (Lexical.invoke ex' d vs') := by
  obtain ⟨⟨name, params, body⟩, cenv, isInitializer⟩ := c
  obtain ⟨decl, clocals, isInitializer'⟩ := d
  obtain ⟨hdecl, hinit, K, Γ, b, hK, hcovers, ⟨hdistinct, hplain, hbody⟩, hthis⟩ := hc
  cases hdecl
  cases hinit
  refine fun m l henv hrel => ?_
  obtain ⟨w', inside, l', hbind, hw', hrel', hst⟩ :=
    enterBody b hrel hcovers hvs hlen.symm hdistinct hplain
  have hframe : Eval.newFrame cenv (Bindings.insertAll [] ((params.map (·.text)).zip vs)) m =
      .ok (w.frames :: cenv) { m with store := (m.store.newFrame cenv
        (Bindings.insertAll [] ((params.map (·.text)).zip vs))).2 } := by
    rw [← hrel.frames]
    rfl
  rw [Eval.invoke, Lexical.invoke, bind_of_ok hframe, bind_of_ok hbind]
  have hrun : Sim table w' env _ _ _ _ := sim_body hex hK hst hw' (Nat.le_refl _) hbody
  refine (hrun.bind ?_) _ l' henv hrel'
  intro w'' flow outcome hw'' hflow
  cases isInitializer with
  | true =>
    refine fun m₁ l₁ henv₁ hrel₁ => ?_
    obtain ⟨v, v', hv, hv', hvv⟩ := (hcovers.grows hw'').value hrel₁ (hthis rfl)
    have hobject : (do Eval.orFault ((← get).store.getAt cenv 0 "this") : Eval Value) m₁ =
        .ok v m₁ := by
      change Eval.orFault (m₁.store.getAt cenv 0 "this") m₁ = _
      rw [hv]
      rfl
    have hobject' : Lexical.readName clocals (thisName name.line) l₁ = .ok v' l₁ := hv' name.line
    simp only [if_true]
    rw [hobject, hobject']
    exact ⟨w'', hw'', hrel₁, henv₁, hvv⟩
  | false =>
    cases hflow with
    | next _ => exact .pure hw'' .nil
    | returned hv => exact .pure hw'' hv

/-- An object is constructed alike, and its initializer runs as a call. -/
theorem sim_construct (hex : Executes table ex ex') {c : Class} {d : Class Locals}
    (hc : Class.Rel (MethodRel table w) c d) {vs : List Value} {vs' : List (Value Locals)}
    (hvs : List.Forall₂ (ValueRel table w) vs vs') (hlen : vs.length = c.arity) :
    Sim table w env (Grows 0 w) (ValueRel table) (Eval.construct ex c vs)
      (Lexical.construct ex' d vs') := by
  refine Sim.keep (sim_newObject rfl) (.refl _ _) ?_
  intro id id' hid
  cases hid
  have hobject : ValueRel table w (.object id c) (.object id d) := .object hc
  have hmethod : OptionRel (MethodRel table w) c.initializer? d.initializer? :=
    hc.findMethod? (fun _ _ => MethodRel.alike) initializerName
  rw [Class.arity] at hlen
  rcases hmethod.inversion with ⟨hs, hs'⟩ | ⟨f, f', hs, hs', hf⟩
  · rw [hs, hs']
    exact .pure (.refl _ _) hobject
  · rw [hs] at hlen
    rw [hs, hs']
    refine (sim_bindMethod hf hobject fun _ hw => hw).bind ?_
    intro w₂ g g' hw₂ hg
    have hvs₂ := hvs.imp fun _ _ => ValueRel.grows hw₂
    have hrun : Sim table w₂ env _ _ _ _ := sim_invoke hex hg.2 hvs₂ (hlen.trans hg.1.symm)
    refine (hrun.after hw₂).bind ?_
    intro w₃ _ _ hw₃ _
    exact .pure hw₃ (hobject.grows hw₃)

/-- What can be called matches, kind by kind, when it is given the arguments it takes. -/
theorem sim_apply (hex : Executes table ex ex') {c : Callable} {d : Callable Locals}
    (hc : Callable.Rel (FunctionRel table w) (MethodRel table w) c d) {vs : List Value}
    {vs' : List (Value Locals)} (hvs : List.Forall₂ (ValueRel table w) vs vs')
    (hlen : vs.length = c.arity) :
    Sim table w env (Grows 0 w) (ValueRel table) (Eval.apply ex c vs)
      (Lexical.apply ex' d vs') := by
  cases hc with
  | native f =>
    cases f with
    | clock =>
      refine (sim_readClock (.refl _ _)).bind ?_
      intro w' a b hw' hab
      cases hab
      exact .pure hw' (.number _)
  | function h => exact sim_invoke hex h hvs hlen
  | cls h => exact sim_construct hex h hvs hlen

/-- A call that is made unless too many are in progress. -/
theorem sim_checkedCall {p : Eval Value} {q : Lexical (Value Locals)}
    (h : Sim table w env (Grows 0 w) (ValueRel table) p q) (line : Nat) :
    Sim table w env (Grows 0 w) (ValueRel table)
      (do
        if Machine.maxCalls ≤ (← get).calls then Eval.fail line .stackOverflow
        else Eval.asCall p)
      (do
        if Machine.maxCalls ≤ (← get).calls then Eval.fail line .stackOverflow
        else Lexical.asCall q) := by
  refine fun m l henv hrel => ?_
  change Matches _ _ ((if Machine.maxCalls ≤ m.calls then Eval.fail line .stackOverflow
    else Eval.asCall p : Eval Value) m) ((if Machine.maxCalls ≤ l.calls then
      Eval.fail line .stackOverflow else Lexical.asCall q : Lexical (Value Locals)) l)
  rw [← hrel.calls]
  split
  · exact Sim.fail (.refl _ _) _ _ m l henv hrel
  · exact h.asCall m l henv hrel

/-- A value is called on both machines, or both make the same error. -/
theorem sim_callValue (hex : Executes table ex ex') {v : Value} {v' : Value Locals}
    (hv : ValueRel table w v v') {vs : List Value} {vs' : List (Value Locals)}
    (hvs : List.Forall₂ (ValueRel table w) vs vs') (line : Nat) :
    Sim table w env (Grows 0 w) (ValueRel table) (Eval.callValue ex v vs line)
      (Lexical.callValue ex' v' vs' line) := by
  rw [Eval.callValue, Lexical.callValue]
  rcases hv.callable?.inversion with ⟨hs, hs'⟩ | ⟨c, d, hs, hs', hc⟩
  · rw [hs, hs']
    exact .fail (.refl _ _) _ _
  · have harity : c.arity = d.arity :=
      hc.arity_eq (fun _ _ => FunctionRel.alike) fun _ _ => MethodRel.alike
    rw [hs, hs']
    simp only [← harity, ← hvs.length_eq]
    by_cases hlen : vs.length = c.arity
    · rw [if_neg (not_not.2 hlen), if_neg (not_not.2 hlen)]
      exact sim_checkedCall (sim_apply hex hc hvs hlen) line
    · rw [if_pos hlen, if_pos hlen]
      exact .fail (.refl _ _) _ _

end Calls

/-! ### Expressions -/

section Expressions

variable {table : Table} {K : Known} {w : Layout} {Γ : Context} {env : Env} {locals : Locals}
  {ev : Expr → Eval Value} {ev' : Locals → Expr → Lexical (Value Locals)}

/-- Arguments are evaluated from the left on both machines. -/
theorem sim_evaluateAll (hev : Evaluates table ev ev') (hK : K.Within table)
    (hcovers : Covers w Γ env locals) {es : List Expr} (hes : Expr.ResolvedList K Γ es) :
    Sim table w env (Grows 0 w) (fun w' => List.Forall₂ (ValueRel table w'))
      (Eval.evaluateAll ev es) (Eval.evaluateAll (ev' locals) es) := by
  induction es generalizing w with
  | nil => exact .pure (.refl _ _) .nil
  | cons e rest ih =>
    refine (hev hK hcovers hes.1).bind ?_
    intro w₁ v v' hw₁ hv
    refine (ih (hcovers.grows hw₁) hes.2).seq (fun _ hw => hw₁.trans hw) ?_
    intro w₂ vs vs' hw₂ hvs
    exact .pure (hw₁.trans hw₂) (.cons (hv.grows hw₂) hvs)

/-- An expression that may be missing matches; without one both machines yield `nil`. -/
theorem sim_evaluateOption (hev : Evaluates table ev ev') (hK : K.Within table)
    (hcovers : Covers w Γ env locals) {e : Option Expr} (he : ResolvedOption K Γ e) :
    Sim table w env (Grows 0 w) (ValueRel table) (Eval.evaluateOption ev e)
      (Eval.evaluateOption (ev' locals) e) := by
  cases e with
  | none => exact .pure (.refl _ _) .nil
  | some e => exact hev hK hcovers he

/-- Evaluation matches if it does with a smaller bound on what is inside. -/
theorem evaluates_succ {fuel fuel' : Nat}
    (hev : Evaluates table (Eval.evaluate fuel) (Lexical.evaluate fuel'))
    (hex : Executes table (Eval.execute fuel) (Lexical.execute fuel')) :
    Evaluates table (Eval.evaluate (fuel + 1)) (Lexical.evaluate (fuel' + 1)) := by
  intro K w Γ env locals e hK hcovers he
  cases e with
  | literal value =>
    refine .pure (.refl _ _) ?_
    cases value with
    | nil => exact .nil
    | bool b => exact .bool b
    | number x => exact .number x
    | string s => exact .string s
  | group inner => exact hev hK hcovers he
  | unary op line operand =>
    refine (hev (e := operand) hK hcovers he).bind ?_
    intro w₁ v v' hw₁ hv
    exact .steady (steady_applyUnary hv rfl op) hw₁
  | binary op line left right =>
    refine (hev hK hcovers he.1).bind ?_
    intro w₁ a a' hw₁ ha
    refine (hev hK (hcovers.grows hw₁) he.2).seq (fun _ hw => hw₁.trans hw) ?_
    intro w₂ b b' hw₂ hb
    exact .steady (steady_applyBinary (ha.grows hw₂) hb rfl op) (hw₁.trans hw₂)
  | logical op line left right =>
    refine (hev hK hcovers he.1).bind ?_
    intro w₁ a a' hw₁ ha
    rw [ha.isDecided_eq]
    split
    · exact .pure hw₁ ha
    · exact (hev hK (hcovers.grows hw₁) he.2).after hw₁
  | var ref => exact sim_readRef (.refl _ _) hcovers hK he
  | assign ref value =>
    refine (hev hK hcovers he.1).bind ?_
    intro w₁ v v' hw₁ hv
    refine Sim.keep (sim_writeRef rfl (hcovers.grows hw₁) hK he.2.1 he.2.2 hv) hw₁ ?_
    intro _ _ _
    exact .pure hw₁ hv
  | call callee arguments line =>
    refine (hev hK hcovers he.1).bind ?_
    intro w₁ f f' hw₁ hf
    refine (sim_evaluateAll hev hK (hcovers.grows hw₁) he.2).seq (fun _ hw => hw₁.trans hw) ?_
    intro w₂ vs vs' hw₂ hvs
    exact (sim_callValue hex (hf.grows hw₂) hvs line).after (hw₁.trans hw₂)
  | get object name =>
    refine (hev (e := object) hK hcovers he).bind ?_
    intro w₁ v v' hw₁ hv
    exact (sim_getProperty hv name).after hw₁
  | set object name value =>
    refine (hev hK hcovers he.1).bind ?_
    intro w₁ o o' hw₁ ho
    have hexpect : Sim table w₁ env (Eq w₁) (fun _ a b => a = b) (Eval.expectObject o name.line)
        (Eval.expectObject o' name.line) := .steady (steady_expectObject ho rfl) rfl
    refine hexpect.keep hw₁ ?_
    intro id id' hid
    cases hid
    refine (hev hK (hcovers.grows hw₁) he.2).seq (fun _ hw => hw₁.trans hw) ?_
    intro w₃ v v' hw₃ hv
    refine Sim.keep (sim_setField rfl id name.text hv) (hw₁.trans hw₃) ?_
    intro _ _ _
    exact .pure (hw₁.trans hw₃) hv
  | this id line =>
    obtain ⟨d, hk, hd⟩ := he
    have hthis : K (Ref.mk id (thisName line)).id (Γ.distance? (thisName line).text) := by
      rw [show Γ.distance? (thisName line).text = some d from hd]
      exact hk
    exact sim_readRef (.refl _ _) hcovers hK hthis
  | super id line method => exact sim_superMethod hcovers hK he

end Expressions

/-! ### Statements -/

section Statements

variable {table : Table} {K : Known} {w : Layout} {Γ : Context} {env : Env} {locals : Locals}

/-- A loop matches whose condition and body do. -/
theorem sim_repeatWhile {condition : Eval Value} {condition' : Locals → Lexical (Value Locals)}
    {body : Eval Flow} {body' : Locals → Lexical Lexical.Outcome}
    (hcondition : ∀ {w locals}, Stands w Γ env locals →
      Sim table w env (Grows 0 w) (ValueRel table) condition (condition' locals))
    (hbody : ∀ {w locals}, Stands w Γ env locals → Sim table w env (Grows env.innermost w)
      (FlowRel table fun w' => Stands w' Γ env) body (body' locals))
    {fuel fuel' : Nat} (hle : fuel ≤ fuel') (hst : Stands w Γ env locals) :
    Sim table w env (Grows env.innermost w) (FlowRel table fun w' => Stands w' Γ env)
      (Eval.repeatWhile condition body fuel)
      (Lexical.repeatWhile condition' body' fuel' locals) := by
  induction fuel generalizing fuel' w locals with
  | zero => exact .exhausted
  | succ fuel ih =>
    cases fuel' with
    | zero => cases hle
    | succ fuel' =>
      refine (hcondition hst).seq (fun _ hw => hw.weaken _) ?_
      intro w₁ v v' hw₁ hv
      rw [hv.isTruthy_eq]
      split
      · refine ((hbody (hst.grows hw₁)).after (hw₁.weaken _)).bind ?_
        intro w₂ flow outcome hw₂ hflow
        cases hflow with
        | next hst₂ => exact (ih (Nat.le_of_succ_le_succ hle) hst₂).after hw₂
        | returned hv => exact .pure hw₂ (.returned hv)
      · exact .pure (hw₁.weaken _) (.next (hst.grows hw₁))

/-- Execution matches if it does with a smaller bound on what is inside. -/
theorem executes_succ {fuel fuel' : Nat} (hle : fuel ≤ fuel')
    (hev : Evaluates table (Eval.evaluate fuel) (Lexical.evaluate fuel'))
    (hex : Executes table (Eval.execute fuel) (Lexical.execute fuel')) :
    Executes table (Eval.execute (fuel + 1)) (Lexical.execute (fuel' + 1)) := by
  intro K w Γ env locals s hK hst hs
  cases s with
  | expression e =>
    refine (hev hK hst.toCovers hs).seq (fun _ hw => hw.weaken _) ?_
    intro w₁ _ _ hw₁ _
    exact .pure (hw₁.weaken _) (.next (hst.grows hw₁))
  | print e =>
    refine (hev hK hst.toCovers hs).seq (fun _ hw => hw.weaken _) ?_
    intro w₁ v v' hw₁ hv
    rw [hv.display_eq fun _ _ => FunctionRel.alike]
    refine Sim.keep (sim_write rfl e.line _) (hw₁.weaken _) ?_
    intro _ _ _
    refine Sim.keep (sim_write rfl e.line _) (hw₁.weaken _) ?_
    intro _ _ _
    exact .pure (hw₁.weaken _) (.next (hst.grows hw₁))
  | varDecl name initializer =>
    refine (sim_evaluateOption hev hK hst.toCovers hs.2).seq (fun _ hw => hw.weaken _) ?_
    intro w₁ v v' hw₁ hv
    refine ((sim_declare (hst.grows hw₁) hs.1 hv).after (hw₁.weaken _)).bind ?_
    intro w₂ _ after hw₂ hst₂
    exact .pure hw₂ (.next hst₂)
  | block body =>
    refine Sim.ask fun m henv => ?_
    rw [henv]
    exact (sim_block hex hK hst hs).weaken (fun _ hw => hw.weaken _) fun _ _ _ _ h => h
  | branch condition yes no =>
    cases no with
    | none =>
      obtain ⟨hcondition, hyes, hafter⟩ := hs
      refine (hev hK hst.toCovers hcondition).seq (fun _ hw => hw.weaken _) ?_
      intro w₁ v v' hw₁ hv
      rw [hv.isTruthy_eq]
      split
      · have hrun := (hex hK (hst.grows hw₁) hyes).after (hw₁.weaken _)
        rw [hafter] at hrun
        exact hrun
      · exact .pure (hw₁.weaken _) (.next (hst.grows hw₁))
    | some no =>
      obtain ⟨hcondition, ⟨hyes, hafter⟩, hno, hafter'⟩ := hs
      refine (hev hK hst.toCovers hcondition).seq (fun _ hw => hw.weaken _) ?_
      intro w₁ v v' hw₁ hv
      rw [hv.isTruthy_eq]
      split
      · have hrun := (hex hK (hst.grows hw₁) hyes).after (hw₁.weaken _)
        rw [hafter] at hrun
        exact hrun
      · have hrun := (hex hK (hst.grows hw₁) hno).after (hw₁.weaken _)
        rw [hafter'] at hrun
        exact hrun
  | loop condition body =>
    obtain ⟨hcondition, hbody, hafter⟩ := hs
    refine sim_repeatWhile (fun hst => hev hK hst.toCovers hcondition) (fun hst => ?_) hle hst
    have hrun := hex hK hst hbody
    rw [hafter] at hrun
    exact hrun
  | funDecl function =>
    refine Sim.ask fun m henv => ?_
    rw [henv]
    have hdeclare := (sim_declareFunction hst hK hs.1 hs.2).bind
      (f := fun _ => Pure.pure Flow.normal) (g := fun after => Pure.pure (.next after))
      (B := FlowRel table fun w' => Stands w' (Γ.define function.name.text) env)
      fun _ _ _ hw hst' => .pure hw (.next hst')
    simp only [bind_assoc, pure_bind] at hdeclare
    exact hdeclare
  | result line value =>
    refine (sim_evaluateOption hev hK hst.toCovers hs).seq (fun _ hw => hw.weaken _) ?_
    intro w₁ v v' hw₁ hv
    exact .pure (hw₁.weaken _) (.returned hv)
  | classDecl name superclass methods =>
    refine (sim_declareClass hst hK hs).bind ?_
    intro w₁ _ after hw₁ hst₁
    exact .pure hw₁ (.next hst₁)

end Statements

/-! ### Programs -/

/-- With any bound, and on the second machine with any greater one, resolved
trees run alike. -/
theorem evaluates_executes (table : Table) {fuel fuel' : Nat} (hle : fuel ≤ fuel') :
    Evaluates table (Eval.evaluate fuel) (Lexical.evaluate fuel') ∧
      Executes table (Eval.execute fuel) (Lexical.execute fuel') := by
  induction fuel generalizing fuel' with
  | zero => exact ⟨fun _ _ _ => .exhausted, fun _ _ _ => .exhausted⟩
  | succ fuel ih =>
    cases fuel' with
    | zero => cases hle
    | succ fuel' =>
      have hle' := Nat.le_of_succ_le_succ hle
      obtain ⟨hev, hex⟩ := ih hle'
      exact ⟨evaluates_succ hev hex, executes_succ hle' hev hex⟩

/-- On the top level there is no scope, no frame but the global one and no map. -/
theorem Stands.top_level (w : Layout) : Stands w .top globalEnv none :=
  ⟨.top w globalEnv, fun _ => ⟨rfl, rfl⟩, fun h => absurd rfl h⟩

/-- A resolved program runs alike on related machines. -/
theorem sim_executeProgram {table : Table} {K : Known} {w : Layout} (hK : K.Within table)
    {fuel fuel' : Nat} (hle : fuel ≤ fuel') {ss : List Stmt}
    (hss : Stmt.ResolvedList K .top ss) :
    Sim table w globalEnv (fun _ => True) (fun _ _ _ => True) (Eval.executeProgram fuel ss)
      (Lexical.executeProgram fuel' ss) := by
  have hex : Executes table (Eval.execute fuel) (Lexical.execute fuel') :=
    (evaluates_executes table hle).2
  induction ss generalizing w with
  | nil => exact .pure trivial trivial
  | cons s rest ih =>
    refine (hex hK (Stands.top_level w) hss.1).seq (fun _ _ => trivial) ?_
    intro w' _ _ _ _
    have hrest := hss.2
    rw [Context.after_top] at hrest
    exact ih hrest

/-- A resolved program ends on related machines as it does on one that runs by
lexical scope: normally or with one error, unless it used up its bound. -/
theorem executeProgram_agrees {table : Table} {K : Known} {w : Layout} {m : Machine}
    {l : LexicalMachine} (hrel : Related table w m l) (henv : m.env = globalEnv)
    (hK : K.Within table) {fuel fuel' : Nat} (hle : fuel ≤ fuel') {ss : List Stmt}
    (hss : Stmt.ResolvedList K .top ss) :
    (∃ m', Eval.executeProgram fuel ss m = .error .exhausted m') ∨
    ∃ m' l', (∃ w', Related table w' m' l') ∧ m'.env = globalEnv ∧
      (Eval.executeProgram fuel ss m = .ok () m' ∧
          Lexical.executeProgram fuel' ss l = .ok () l' ∨
        ∃ e, Eval.executeProgram fuel ss m = .error (.error e) m' ∧
          Lexical.executeProgram fuel' ss l = .error (.error e) l') := by
  rcases (sim_executeProgram hK hle hss m l henv hrel).inversion with
    hexhausted | ⟨_, m', _, l', hm, hl, w', -, hrel', henv', -⟩ |
      ⟨_, m', _, l', hm, hl, ⟨e, rfl, rfl⟩, w', -, hrel', henv'⟩
  · exact .inl hexhausted
  · exact .inr ⟨m', l', ⟨w', hrel'⟩, henv', .inl ⟨hm, hl⟩⟩
  · exact .inr ⟨m', l', ⟨w', hrel'⟩, henv', .inr ⟨e, hm, hl⟩⟩

end Lox
