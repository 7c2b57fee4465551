import Lox.Proofs.Shift.Alike
import Lox.Session

/-!
# Shifted trees run alike

A tree that stands further down, or has other identities, runs as the tree itself
does, on machines that are alike: the values correspond, the output is the same,
and what ends a run early differs at most in its line. The proof is by induction on
the bound of the first run; the second may have any greater one.
-/

namespace Lox

/-- Two steps that match when started on machines that are alike. -/
def Parallel {α β : Type} (P : Pairing) (A : α → β → Prop) (p : Eval α) (q : Eval β) : Prop :=
  ∀ m m', P.Alike m m' →
    Matches (fun a m b m' => P.Alike m m' ∧ A a b) (fun h m h' m' => P.Halts h h' ∧ P.Alike m m')
      (p m) (q m')

namespace Parallel

variable {α β α' β' : Type} {P : Pairing} {A : α → β → Prop} {B : α' → β' → Prop} {p : Eval α}
  {q : Eval β}

/-- Steps that yield what corresponds and change nothing match. -/
theorem pure {a : α} {b : β} (h : A a b) : Parallel P A (pure a) (pure b) :=
  fun _ _ hm => ⟨hm, h⟩

/-- Steps that match, one after the other, match. -/
theorem bind {f : α → Eval α'} {g : β → Eval β'} (h : Parallel P A p q)
    (hf : ∀ a b, A a b → Parallel P B (f a) (g b)) : Parallel P B (p >>= f) (q >>= g) := by
  intro m m' hm
  refine (h m m' hm).bind ?_
  intro a m b m' hok
  exact hf a b hok.2 m m' hok.1

/-- Steps that look at their machines first. -/
theorem ask {f : Machine → Eval α} {g : Machine → Eval β}
    (h : ∀ m m', P.Alike m m' → Parallel P A (f m) (g m')) :
    Parallel P A (get >>= f) (get >>= g) :=
  fun m m' hm => h m m' hm m m' hm

/-- Steps that change nothing match on all machines, when they match at all. -/
theorem steady (h : Steady P.Lines A p q) : Parallel P A p q := by
  intro m m' hm
  rcases h m m' with ⟨a, b, hp, hq, hab⟩ | ⟨line, line', cause, hlines, hp, hq⟩
  · rw [hp, hq]
    exact ⟨hm, hab⟩
  · rw [hp, hq]
    exact ⟨.error hlines cause, hm⟩

/-- Errors on lines that correspond match. -/
theorem fail {line line' : Nat} (h : P.Lines line line') (cause : RuntimeCause) :
    Parallel P A (Eval.fail line cause) (Eval.fail line' cause) :=
  fun _ _ hm => ⟨.error h cause, hm⟩

/-- A run out of fuel matches everything: nothing is asked of the second run then. -/
theorem exhausted : Parallel P A (throw .exhausted) q :=
  fun m m' _ => Matches.exhausted m (q m')

/-- Steps that end with one fault. -/
theorem fault (f : Fault) : Parallel P A (throw (.fault f)) (throw (.fault f)) :=
  fun _ _ hm => ⟨.refl _, hm⟩

/-- Steps in one environment. -/
theorem inEnv (h : Parallel P A p q) (env : Env) :
    Parallel P A (Eval.inEnv env p) (Eval.inEnv env q) := by
  intro m m' hm
  have hinner : P.Alike { m with env := env } { m' with env := env } := { hm with env := rfl }
  rw [inEnv_apply, inEnv_apply]
  refine (h _ _ hinner).onState _ _ ?_ ?_
  · intro a m₁ b m₁' hok
    exact ⟨{ hok.1 with env := hm.env }, hok.2⟩
  · intro h m₁ h' m₁' hhalt
    exact ⟨hhalt.1, { hhalt.2 with env := hm.env }⟩

/-- Steps as one more call. -/
theorem asCall (h : Parallel P A p q) : Parallel P A (Eval.asCall p) (Eval.asCall q) := by
  intro m m' hm
  have hinner : P.Alike { m with calls := m.calls + 1 } { m' with calls := m'.calls + 1 } :=
    { hm with calls := congrArg (· + 1) hm.calls }
  rw [asCall_apply, asCall_apply]
  refine (h _ _ hinner).onState _ _ ?_ ?_
  · intro a m₁ b m₁' hok
    exact ⟨{ hok.1 with calls := congrArg (· - 1) hok.1.calls }, hok.2⟩
  · intro h m₁ h' m₁' hhalt
    exact ⟨hhalt.1, { hhalt.2 with calls := congrArg (· - 1) hhalt.2.calls }⟩

end Parallel

/-! ### Names, objects and output -/

section Steps

variable {P : Pairing} {l : Nat} {v v' : Value}

/-- A change of both stores. -/
theorem parallel_modifyStore {f g : Store → Store}
    (h : ∀ s s', P.Stores s s' → P.Stores (f s) (g s')) :
    Parallel P (fun _ _ => True) (Eval.modifyStore f) (Eval.modifyStore g) :=
  fun _ _ hm => ⟨{ hm with store := h _ _ hm.store }, trivial⟩

/-- A change of both stores that yields one and the same. -/
theorem parallel_onStore {α : Type} {f g : Store → α × Store}
    (h : ∀ s s', P.Stores s s' → (g s').1 = (f s).1 ∧ P.Stores (f s).2 (g s').2) :
    Parallel P (fun a b => b = a) (Eval.onStore f) (Eval.onStore g) :=
  fun _ _ hm => ⟨{ hm with store := (h _ _ hm.store).2 }, (h _ _ hm.store).1⟩

/-- A reading of both stores that may be at fault. -/
theorem parallel_orFault {α β : Type} {A : α → β → Prop} {r : Except Fault α}
    {r' : Except Fault β}
    (h : (∃ a b, r = .ok a ∧ r' = .ok b ∧ A a b) ∨ ∃ f, r = .error f ∧ r' = .error f) :
    Parallel P A (Eval.orFault r) (Eval.orFault r') := by
  rcases h with ⟨a, b, rfl, rfl, hab⟩ | ⟨f, rfl, rfl⟩
  · exact .pure hab
  · exact .fault f

/-- A definition of the same name matches, with values that correspond. -/
theorem parallel_define (x : String) (hv : P.Values v v') :
    Parallel P (fun _ _ => True) (Eval.define x v) (Eval.define x v') := by
  intro m m' hm
  have hstore : P.Stores (m.store.define m.env x v) (m'.store.define m'.env x v') := by
    rw [hm.env]
    exact hm.store.define m.env x hv
  exact ⟨{ hm with store := hstore }, trivial⟩

/-- References have the same distance on both machines. -/
theorem Pairing.Alike.distance? {m m' : Machine} (hm : P.Alike m m') {id : Nat}
    (hid : id < P.bound) : m'.distances[P.rename id]? = m.distances[id]? := by
  rw [hm.left, hm.right]
  exact P.agree id hid

/-- A variable is read at the same distance on both sides, or as a global of the same name. -/
theorem parallel_readRef (hl : P.IsOffset l) {ref : Ref} (hid : ref.id < P.bound) :
    Parallel P P.Values (Eval.readRef ref) (Eval.readRef (ref.shift P.rename l)) := by
  refine Parallel.ask fun m m' hm => ?_
  have hdistance : m'.distances[(ref.shift P.rename l).id]? = m.distances[ref.id]? :=
    hm.distance? hid
  rw [hdistance]
  cases m.distances[ref.id]? with
  | some d =>
    refine parallel_orFault ?_
    rw [hm.env]
    exact hm.store.getAt m.env d ref.name.text
  | none =>
    have hget : OptionRel P.Values (m.store.get? globalEnv ref.name.text)
        (m'.store.get? globalEnv (ref.shift P.rename l).name.text) :=
      hm.store.get?_globalEnv ref.name.text
    unfold Store.read
    rcases hget.inversion with ⟨hs, hs'⟩ | ⟨v, v', hs, hs', hv⟩
    · rw [hs, hs']
      exact .fail (.of hl _) _
    · rw [hs, hs']
      exact .pure hv

/-- A variable is written at the same distance on both sides, or as a global of the same name. -/
theorem parallel_writeRef (hl : P.IsOffset l) {ref : Ref} (hid : ref.id < P.bound)
    (hv : P.Values v v') :
    Parallel P (fun _ _ => True) (Eval.writeRef ref v)
      (Eval.writeRef (ref.shift P.rename l) v') := by
  refine Parallel.ask fun m m' hm => ?_
  have hdistance : m'.distances[(ref.shift P.rename l).id]? = m.distances[ref.id]? :=
    hm.distance? hid
  rw [hdistance]
  cases m.distances[ref.id]? with
  | some d =>
    have hframe : Parallel P (fun p p' : Nat × Value => p'.1 = p.1)
        (Eval.orFault (m.store.frameAt m.env d ref.name.text))
        (Eval.orFault (m'.store.frameAt m'.env d ref.name.text)) := by
      refine parallel_orFault ?_
      rw [hm.env]
      rcases hm.store.frameAt m.env d ref.name.text with ⟨i, u, u', hs, hs', -⟩ | hfault
      · exact .inl ⟨_, _, hs, hs', rfl⟩
      · exact .inr hfault
    refine hframe.bind ?_
    intro p p' hp
    obtain ⟨i, u⟩ := p
    obtain ⟨i', u'⟩ := p'
    cases hp
    exact parallel_modifyStore fun s s' hs => hs.bindIn i ref.name.text hv
  | none =>
    have hholder : m'.store.holder? globalEnv (ref.shift P.rename l).name.text =
        m.store.holder? globalEnv ref.name.text := hm.store.holder? globalEnv ref.name.text
    dsimp only
    rw [hholder]
    cases m.store.holder? globalEnv ref.name.text with
    | some i => exact parallel_modifyStore fun s s' hs => hs.bindIn i ref.name.text hv
    | none => exact .fail (.of hl _) _

/-- New frames match. -/
theorem parallel_newFrame (env : Env) {b b' : Bindings} (hb : Bindings.Rel P.Values b b') :
    Parallel P (fun a a' => a' = a) (Eval.newFrame env b) (Eval.newFrame env b') :=
  parallel_onStore fun _ _ hs => hs.newFrame env hb

/-- New functions match. -/
theorem parallel_newFunction {c c' : Closure} (hc : P.Closures c c') :
    Parallel P P.Values (Eval.newFunction c) (Eval.newFunction c') := by
  refine (parallel_onStore fun _ _ hs => hs.freshId).bind ?_
  intro id id' hid
  cases hid
  exact .pure (.function hc)

/-- Methods that are bound to objects that correspond match, and take as many arguments. -/
theorem parallel_bindMethod {c c' : Closure} (hc : P.Closures c c') (hv : P.Values v v') :
    Parallel P (fun f f' => f.arity = c.arity ∧ P.Closures f f') (Eval.bindMethod c v)
      (Eval.bindMethod c' v') := by
  have hthis : Bindings.Rel P.Values [("this", v)] [("this", v')] := .cons ⟨rfl, hv⟩ .nil
  unfold Eval.bindMethod
  rw [hc.env]
  refine (parallel_newFrame c.env hthis).bind ?_
  intro env env' henv
  cases henv
  exact .pure ⟨rfl, rfl, hc.isInitializer, hc.bound, hc.decl⟩

/-- A method that was looked up, bound to an object. -/
theorem parallel_boundMethod {c c' : Option Closure} (hv : P.Values v v') {line line' : Nat}
    (hline : P.Lines line line') (cause : RuntimeCause) :
    OptionRel P.Closures c c' → Parallel P P.Values
      (match c with
        | some found => do Eval.newFunction (← Eval.bindMethod found v)
        | none => Eval.fail line cause)
      (match c' with
        | some found => do Eval.newFunction (← Eval.bindMethod found v')
        | none => Eval.fail line' cause) := by
  intro hc
  cases hc with
  | none => exact .fail hline cause
  | some hc =>
    refine (parallel_bindMethod hc hv).bind ?_
    intro f f' hf
    exact parallel_newFunction hf.2

/-- A property is found in the fields, or else among the methods, on both sides. -/
theorem parallel_getProperty (hl : P.IsOffset l) (hv : P.Values v v') (name : Name) :
    Parallel P P.Values (Eval.getProperty v name) (Eval.getProperty v' (name.shift l)) := by
  cases hv with
  | @object id c d hcls =>
    refine Parallel.ask fun m m' hm => ?_
    have hfield : OptionRel P.Values (m.store.field? id name.text)
        (m'.store.field? id (name.shift l).text) :=
      (Bindings.Rel.getD hm.store.fields id).get? name.text
    rcases hfield.inversion with ⟨hs, hs'⟩ | ⟨u, u', hs, hs', hu⟩
    · rw [hs, hs']
      exact parallel_boundMethod (.object hcls) (.of hl _) _
        (hcls.findMethod? (fun _ _ => Pairing.Closures.alike) name.text)
    · rw [hs, hs']
      exact .pure hu
  | _ => exact .fail (.of hl _) _

/-- A method of the superclass is looked up in classes that correspond, and bound to
objects that do. -/
theorem parallel_superMethod (hl : P.IsOffset l) {id : Nat} (hid : id < P.bound) (method : Name) :
    Parallel P P.Values (Eval.superMethod id method)
      (Eval.superMethod (P.rename id) (method.shift l)) := by
  refine Parallel.ask fun m m' hm => ?_
  rw [hm.distance? hid]
  cases m.distances[id]? with
  | none => exact fun _ _ hm => ⟨⟨l, hl, rfl⟩, hm⟩
  | some d =>
    refine (parallel_orFault (A := P.Values) ?_).bind ?_
    · rw [hm.env]
      exact hm.store.getAt m.env d "super"
    · intro s s' hs
      refine (parallel_orFault (A := P.Values) ?_).bind ?_
      · cases d with
        | zero => exact .inr ⟨_, rfl, rfl⟩
        | succ d =>
          unfold Eval.objectInside
          rw [hm.env]
          exact hm.store.getAt m.env d "this"
      · intro o o' ho
        cases hs with
        | cls hcls =>
          exact parallel_boundMethod ho (.of hl _) _
            (hcls.findMethod? (fun _ _ => Pairing.Closures.alike) method.text)
        | _ => exact .fault _

/-- Changes of both sinks match, where the earlier text plays no part in them. -/
theorem parallel_modifySink {change : Sink → Sink}
    (hchange : ∀ sink : Sink, change (sink.behind P.earlier) = (change sink).behind P.earlier) :
    Parallel P (fun _ _ => True) (Eval.modifySink change) (Eval.modifySink change) :=
  fun _ m' hm => ⟨{ hm with sink := (congrArg change hm.sink).trans (hchange m'.sink) }, trivial⟩

/-- What one side prints the other prints as well, or both are refused. -/
theorem parallel_write {line line' : Nat} (hline : P.Lines line line') (piece : String) :
    Parallel P (fun _ _ => True) (Eval.write line piece) (Eval.write line' piece) := by
  refine Parallel.ask fun m m' hm => ?_
  have hrefuses : m.sink.refuses = m'.sink.refuses := by
    rw [hm.sink]
    rfl
  have hrefusal : m.sink.refusal = m'.sink.refusal := by
    rw [hm.sink]
    rfl
  dsimp only
  rw [hrefuses, hrefusal]
  split
  · refine (parallel_modifySink fun sink => ?_).bind fun _ _ _ => .fail hline _
    exact sink.refuse_behind P.earlier piece
  · exact parallel_modifySink fun sink => sink.take_behind P.earlier piece

/-- Both sides read the same time. -/
theorem parallel_readClock : Parallel P (fun a b => b = a) Eval.readClock Eval.readClock := by
  intro m m' hm
  have hreading : m'.clock.reading m'.clock.taken = m.clock.reading m.clock.taken := by
    rw [hm.clock]
  exact ⟨{ hm with clock := congrArg (fun c => { c with taken := c.taken + 1 }) hm.clock },
    hreading⟩

end Steps

/-! ### Bodies and calls -/

/-- Ends of statements that correspond. -/
inductive Pairing.Flows (P : Pairing) : Flow → Flow → Prop where
  /-- Both end normally. -/
  | normal : P.Flows .normal .normal
  /-- Both end the call in progress with values that correspond. -/
  | returned {v v' : Value} (h : P.Values v v') : P.Flows (.returned v) (.returned v')

/-- Two ways to execute statements that match on trees further down. -/
def Pairing.Executes (P : Pairing) (ex ex' : Stmt → Eval Flow) : Prop :=
  ∀ {s l}, P.IsOffset l → s.bound ≤ P.bound → Parallel P P.Flows (ex s) (ex' (s.shift P.rename l))

/-- Two ways to evaluate expressions that match on trees further down. -/
def Pairing.Evaluates (P : Pairing) (ev ev' : Expr → Eval Value) : Prop :=
  ∀ {e l}, P.IsOffset l → e.bound ≤ P.bound → Parallel P P.Values (ev e) (ev' (e.shift P.rename l))

section Calls

variable {P : Pairing} {l : Nat} {ex ex' : Stmt → Eval Flow} {vs vs' : List Value}

/-- Statements that run one after the other match, up to the first one that returns. -/
theorem parallel_executeAll (hex : P.Executes ex ex') (hl : P.IsOffset l) {ss : List Stmt}
    (hss : Stmt.boundList ss ≤ P.bound) :
    Parallel P P.Flows (Eval.executeAll ex ss)
      (Eval.executeAll ex' (Stmt.shiftList P.rename l ss)) := by
  induction ss with
  | nil => exact .pure .normal
  | cons s rest ih =>
    obtain ⟨hs, hrest⟩ := Nat.max_le.1 hss
    refine (hex hl hs).bind ?_
    intro flow flow' hflow
    cases hflow with
    | normal => exact ih hrest
    | returned hv => exact .pure (.returned hv)

/-- Bindings that are added to others correspond one by one. -/
theorem Bindings.Rel.insertAll {V : Value → Value → Prop} {a b : Bindings}
    (hab : Bindings.Rel V a b) {added added' : Bindings} (h : Bindings.Rel V added added') :
    Bindings.Rel V (Bindings.insertAll a added) (Bindings.insertAll b added') := by
  induction h generalizing a b with
  | nil => exact hab
  | @cons p q added added' hpq _ ih =>
    have hfirst := hab.insert hpq.2 p.1
    rw [show Bindings.insert b p.1 q.2 = Bindings.insert b q.1 q.2 by rw [hpq.1]] at hfirst
    exact ih hfirst

/-- Parameters are bound to arguments that correspond. -/
theorem Bindings.Rel.zip {V : Value → Value → Prop} (names : List String)
    (h : List.Forall₂ V vs vs') : Bindings.Rel V (names.zip vs) (names.zip vs') := by
  induction h generalizing names with
  | nil =>
    rw [List.zip_nil_right]
    exact .nil
  | cons hv _ ih =>
    cases names with
    | nil => exact .nil
    | cons name names => exact .cons ⟨rfl, hv⟩ (ih names)

/-- A call runs the body of a function further down in the same environment, with
arguments that correspond. -/
theorem parallel_invoke (hex : P.Executes ex ex') {c c' : Closure} (hc : P.Closures c c')
    (hvs : List.Forall₂ P.Values vs vs') :
    Parallel P P.Values (Eval.invoke ex c vs) (Eval.invoke ex' c' vs') := by
  obtain ⟨⟨name, params, body⟩, env, isInitializer⟩ := c
  obtain ⟨decl', env', isInitializer'⟩ := c'
  obtain ⟨henv, hinit, hbound, l, hl, hdecl⟩ := hc
  cases henv
  cases hinit
  cases hdecl
  have hnames : (params.map (Name.shift l)).map (·.text) = params.map (·.text) := by
    rw [List.map_map]
    rfl
  unfold Eval.invoke
  dsimp only [FunDecl.shift]
  rw [hnames]
  refine (parallel_newFrame env (Bindings.Rel.insertAll .nil (.zip _ hvs))).bind ?_
  intro inner inner' hinner
  cases hinner
  refine ((parallel_executeAll hex hl hbound).inEnv inner).bind ?_
  intro flow flow' hflow
  cases isInitializer with
  | true =>
    refine Parallel.ask fun m m' hm => ?_
    exact parallel_orFault (hm.store.getAt env 0 "this")
  | false =>
    cases hflow with
    | normal => exact .pure .nil
    | returned hv => exact .pure hv

/-- An object is constructed with the same index, and its initializer runs on arguments
that correspond. -/
theorem parallel_construct (hex : P.Executes ex ex') {c c' : Class}
    (hc : Class.Rel P.Closures c c') (hvs : List.Forall₂ P.Values vs vs') :
    Parallel P P.Values (Eval.construct ex c vs) (Eval.construct ex' c' vs') := by
  refine (parallel_onStore fun _ _ hs => hs.newObject).bind ?_
  intro id id' hid
  cases hid
  have hobject : P.Values (.object id c) (.object id c') := .object hc
  have hmethod : OptionRel P.Closures c.initializer? c'.initializer? :=
    hc.findMethod? (fun _ _ => Pairing.Closures.alike) initializerName
  dsimp only
  rcases hmethod.inversion with ⟨hs, hs'⟩ | ⟨f, f', hs, hs', hf⟩
  · rw [hs, hs']
    exact .pure hobject
  · rw [hs, hs']
    refine (parallel_bindMethod hf hobject).bind ?_
    intro g g' hg
    refine (parallel_invoke hex hg.2 hvs).bind ?_
    intro _ _ _
    exact .pure hobject

/-- What can be called matches, kind by kind. -/
theorem parallel_apply (hex : P.Executes ex ex') {c c' : Callable}
    (hc : Callable.Rel P.Closures P.Closures c c') (hvs : List.Forall₂ P.Values vs vs') :
    Parallel P P.Values (Eval.apply ex c vs) (Eval.apply ex' c' vs') := by
  cases hc with
  | native f =>
    cases f with
    | clock =>
      refine parallel_readClock.bind ?_
      intro a b hab
      cases hab
      exact .pure (.number _)
  | function h => exact parallel_invoke hex h hvs
  | cls h => exact parallel_construct hex h hvs

/-- A value is called, or the same error is made, on lines that correspond. -/
theorem parallel_callValue (hex : P.Executes ex ex') {v v' : Value} (hv : P.Values v v')
    (hvs : List.Forall₂ P.Values vs vs') {line line' : Nat} (hline : P.Lines line line') :
    Parallel P P.Values (Eval.callValue ex v vs line) (Eval.callValue ex' v' vs' line') := by
  rw [Eval.callValue, Eval.callValue]
  rcases hv.callable?.inversion with ⟨hs, hs'⟩ | ⟨c, c', hs, hs', hc⟩
  · rw [hs, hs']
    exact .fail hline _
  · have harity : c.arity = c'.arity :=
      hc.arity_eq (fun _ _ => Pairing.Closures.alike) fun _ _ => Pairing.Closures.alike
    rw [hs, hs']
    simp only [← harity, ← hvs.length_eq]
    split
    · exact .fail hline _
    · refine Parallel.ask fun m m' hm => ?_
      rw [hm.calls]
      split
      · exact .fail hline _
      · exact (parallel_apply hex hc hvs).asCall

end Calls

/-! ### Expressions -/

section Expressions

variable {P : Pairing} {l : Nat} {ev ev' : Expr → Eval Value}

/-- Arguments are evaluated from the left on both sides. -/
theorem parallel_evaluateAll (hev : P.Evaluates ev ev') (hl : P.IsOffset l) {es : List Expr}
    (hes : Expr.boundList es ≤ P.bound) :
    Parallel P (List.Forall₂ P.Values) (Eval.evaluateAll ev es)
      (Eval.evaluateAll ev' (Expr.shiftList P.rename l es)) := by
  induction es with
  | nil => exact .pure .nil
  | cons e rest ih =>
    obtain ⟨he, hrest⟩ := Nat.max_le.1 hes
    refine (hev hl he).bind ?_
    intro v v' hv
    refine (ih hrest).bind ?_
    intro vs vs' hvs
    exact .pure (.cons hv hvs)

/-- An expression that may be missing matches; without one both sides yield `nil`. -/
theorem parallel_evaluateOption (hev : P.Evaluates ev ev') (hl : P.IsOffset l)
    {e : Option Expr} (he : boundOption e ≤ P.bound) :
    Parallel P P.Values (Eval.evaluateOption ev e)
      (Eval.evaluateOption ev' (e.map (·.shift P.rename l))) := by
  cases e with
  | none => exact .pure .nil
  | some e => exact hev hl he

/-- Expressions that are further down have lines further down, but for literals,
which have none. -/
theorem Pairing.lines_line (hl : P.IsOffset l) :
    ∀ e : Expr, P.Lines e.line (e.shift P.rename l).line
  | .literal _ => .refl 0
  | .group inner => lines_line hl inner
  | .unary _ line _ | .binary _ line _ _ | .logical _ line _ _ | .call _ _ line | .this _ line
  | .super _ line _ => .of hl line
  | .var ref | .assign ref _ => .of hl ref.name.line
  | .get _ name | .set _ name _ => .of hl name.line

/-- Expressions match with one more level of nesting, when expressions and statements
match before it. -/
theorem Pairing.evaluates_succ {fuel fuel' : Nat}
    (hev : P.Evaluates (Eval.evaluate fuel) (Eval.evaluate fuel'))
    (hex : P.Executes (Eval.execute fuel) (Eval.execute fuel')) :
    P.Evaluates (Eval.evaluate (fuel + 1)) (Eval.evaluate (fuel' + 1)) := by
  intro e l hl he
  cases e with
  | literal value =>
    refine .pure ?_
    cases value with
    | nil => exact .nil
    | bool b => exact .bool b
    | number x => exact .number x
    | string s => exact .string s
  | group inner => exact hev hl he
  | unary op line operand =>
    refine (hev (e := operand) hl he).bind ?_
    intro v v' hv
    exact .steady (steady_applyUnary hv (.of hl line) op)
  | binary op line left right =>
    obtain ⟨hleft, hright⟩ := Nat.max_le.1 he
    refine (hev hl hleft).bind ?_
    intro a a' ha
    refine (hev hl hright).bind ?_
    intro b b' hb
    exact .steady (steady_applyBinary ha hb (.of hl line) op)
  | logical op line left right =>
    obtain ⟨hleft, hright⟩ := Nat.max_le.1 he
    refine (hev hl hleft).bind ?_
    intro a a' ha
    rw [ha.isDecided_eq]
    split
    · exact .pure ha
    · exact hev hl hright
  | var ref => exact parallel_readRef hl he
  | assign ref value =>
    obtain ⟨href, hvalue⟩ := Nat.max_le.1 he
    refine (hev hl hvalue).bind ?_
    intro v v' hv
    refine (parallel_writeRef hl href hv).bind ?_
    intro _ _ _
    exact .pure hv
  | call callee arguments line =>
    obtain ⟨hcallee, harguments⟩ := Nat.max_le.1 he
    refine (hev hl hcallee).bind ?_
    intro f f' hf
    refine (parallel_evaluateAll hev hl harguments).bind ?_
    intro vs vs' hvs
    exact parallel_callValue hex hf hvs (.of hl line)
  | get object name =>
    refine (hev (e := object) hl he).bind ?_
    intro v v' hv
    exact parallel_getProperty hl hv name
  | set object name value =>
    obtain ⟨hobject, hvalue⟩ := Nat.max_le.1 he
    refine (hev hl hobject).bind ?_
    intro o o' ho
    refine (Parallel.steady (steady_expectObject ho (.of hl name.line))).bind ?_
    intro id id' hid
    cases hid
    refine (hev hl hvalue).bind ?_
    intro v v' hv
    refine (parallel_modifyStore fun s s' hs => hs.setField id name.text hv).bind ?_
    intro _ _ _
    exact .pure hv
  | this id line =>
    have hid : (Ref.mk id (thisName line)).id < P.bound := he
    exact parallel_readRef hl hid
  | super id line method => exact parallel_superMethod hl he method

end Expressions

/-! ### Statements -/

section Statements

variable {P : Pairing} {l : Nat}

/-- Loops match round by round; the second one may have the greater bound. -/
theorem parallel_repeatWhile {condition condition' : Eval Value} {body body' : Eval Flow}
    (hcondition : Parallel P P.Values condition condition')
    (hbody : Parallel P P.Flows body body') {fuel fuel' : Nat} (hle : fuel ≤ fuel') :
    Parallel P P.Flows (Eval.repeatWhile condition body fuel)
      (Eval.repeatWhile condition' body' fuel') := by
  induction fuel generalizing fuel' with
  | zero => exact .exhausted
  | succ fuel ih =>
    cases fuel' with
    | zero => cases hle
    | succ fuel' =>
      refine hcondition.bind ?_
      intro v v' hv
      rw [hv.isTruthy_eq]
      split
      · refine hbody.bind ?_
        intro flow flow' hflow
        cases hflow with
        | normal => exact ih (Nat.le_of_succ_le_succ hle)
        | returned hv => exact .pure (.returned hv)
      · exact .pure .normal

/-- A superclass is a class on both sides, or both fail. -/
theorem parallel_readSuperclass (hl : P.IsOffset l) {superclass : Option Ref}
    (hs : ∀ ref, superclass = some ref → ref.id < P.bound) :
    Parallel P (OptionRel (Class.Rel P.Closures)) (Eval.readSuperclass superclass)
      (Eval.readSuperclass (superclass.map (·.shift P.rename l))) := by
  cases superclass with
  | none => exact .pure .none
  | some ref =>
    refine (parallel_readRef hl (hs ref rfl)).bind ?_
    intro v v' hv
    cases hv with
    | cls h => exact .pure (.some h)
    | _ => exact .fail (.of hl _) _

/-- The methods of a class are closed over the same environment. -/
theorem closeMethods_shift (hl : P.IsOffset l) (env : Env) {methods : List FunDecl}
    (hm : FunDecl.boundList methods ≤ P.bound) :
    List.Forall₂ P.Closures (Eval.closeMethods env methods)
      (Eval.closeMethods env (FunDecl.shiftList P.rename l methods)) := by
  unfold Eval.closeMethods
  rw [List.forall₂_reverse_iff]
  induction methods with
  | nil => exact .nil
  | cons f rest ih =>
    obtain ⟨hf, hrest⟩ := Nat.max_le.1 hm
    obtain ⟨name, params, body⟩ := f
    exact .cons ⟨rfl, rfl, hf, l, hl, rfl⟩ (ih hrest)

/-- Methods are declared in the same environment, with a frame for `super` where there is
a superclass. -/
theorem parallel_methodEnv (env : Env) {s s' : Option Class}
    (hs : OptionRel (Class.Rel P.Closures) s s') :
    Parallel P (fun a b => b = a) (Eval.methodEnv env s) (Eval.methodEnv env s') := by
  cases hs with
  | none => exact .pure rfl
  | some h =>
    have hsuper : P.Values (.cls _) (.cls _) := .cls h
    exact parallel_newFrame env (.cons ⟨rfl, hsuper⟩ .nil)

/-- Classes are declared alike, with superclasses and methods that correspond. -/
theorem parallel_declareClass (hl : P.IsOffset l) (name : Name) {superclass : Option Ref}
    {methods : List FunDecl} (hparent : ∀ ref, superclass = some ref → ref.id < P.bound)
    (hbound : FunDecl.boundList methods ≤ P.bound) :
    Parallel P (fun _ _ => True) (Eval.declareClass name superclass methods)
      (Eval.declareClass (name.shift l) (superclass.map (·.shift P.rename l))
        (FunDecl.shiftList P.rename l methods)) := by
  refine (parallel_define name.text .nil).bind ?_
  intro _ _ _
  refine (parallel_readSuperclass hl hparent).bind ?_
  intro s s' hs
  refine Parallel.ask fun m m' hm => ?_
  rw [hm.env]
  refine (parallel_methodEnv m.env hs).bind ?_
  intro env env' henv
  cases henv
  refine (parallel_onStore fun _ _ hs => hs.freshId).bind ?_
  intro id id' hid
  cases hid
  have hmethods := closeMethods_shift hl env hbound
  refine parallel_define name.text (.cls ?_)
  cases hs with
  | none => exact .base hmethods
  | some h => exact .derived h hmethods

/-- Statements match with one more level of nesting, when expressions and statements match
before it. -/
theorem Pairing.executes_succ {fuel fuel' : Nat} (hle : fuel ≤ fuel')
    (hev : P.Evaluates (Eval.evaluate fuel) (Eval.evaluate fuel'))
    (hex : P.Executes (Eval.execute fuel) (Eval.execute fuel')) :
    P.Executes (Eval.execute (fuel + 1)) (Eval.execute (fuel' + 1)) := by
  intro s l hl hs
  cases s with
  | expression e =>
    refine (hev (e := e) hl hs).bind ?_
    intro _ _ _
    exact .pure .normal
  | print e =>
    refine (hev (e := e) hl hs).bind ?_
    intro v v' hv
    rw [hv.display_eq fun _ _ => Pairing.Closures.alike]
    refine (parallel_write (P.lines_line hl e) _).bind ?_
    intro _ _ _
    refine (parallel_write (P.lines_line hl e) _).bind ?_
    intro _ _ _
    exact .pure .normal
  | varDecl name initializer =>
    refine (parallel_evaluateOption hev hl hs).bind ?_
    intro v v' hv
    refine (parallel_define name.text hv).bind ?_
    intro _ _ _
    exact .pure .normal
  | block body =>
    refine Parallel.ask fun m m' hm => ?_
    rw [hm.env]
    refine (parallel_newFrame m.env .nil).bind ?_
    intro inner inner' hinner
    cases hinner
    exact (parallel_executeAll hex hl hs).inEnv inner
  | branch condition yes no =>
    cases no with
    | none =>
      obtain ⟨hcondition, hyes⟩ := Nat.max_le.1 hs
      refine (hev hl hcondition).bind ?_
      intro v v' hv
      rw [hv.isTruthy_eq]
      split
      · exact hex hl hyes
      · exact .pure .normal
    | some no =>
      obtain ⟨hcondition, hbranches⟩ := Nat.max_le.1 hs
      obtain ⟨hyes, hno⟩ := Nat.max_le.1 hbranches
      refine (hev hl hcondition).bind ?_
      intro v v' hv
      rw [hv.isTruthy_eq]
      split
      · exact hex hl hyes
      · exact hex hl hno
  | loop condition body =>
    obtain ⟨hcondition, hbody⟩ := Nat.max_le.1 hs
    exact parallel_repeatWhile (hev hl hcondition) (hex hl hbody) hle
  | funDecl function =>
    obtain ⟨name, params, body⟩ := function
    refine Parallel.ask fun m m' hm => ?_
    rw [hm.env]
    have hclosure : P.Closures ⟨⟨name, params, body⟩, m.env, false⟩
        ⟨FunDecl.shift P.rename l ⟨name, params, body⟩, m.env, false⟩ := ⟨rfl, rfl, hs, l, hl, rfl⟩
    refine (parallel_newFunction hclosure).bind ?_
    intro v v' hv
    refine (parallel_define name.text hv).bind ?_
    intro _ _ _
    exact .pure .normal
  | result line value =>
    refine (parallel_evaluateOption hev hl hs).bind ?_
    intro v v' hv
    exact .pure (.returned hv)
  | classDecl name superclass methods =>
    have hparts : (∀ ref, superclass = some ref → ref.id < P.bound) ∧
        FunDecl.boundList methods ≤ P.bound := by
      cases superclass with
      | none => exact ⟨nofun, hs⟩
      | some ref =>
        obtain ⟨href, hmethods⟩ := Nat.max_le.1 hs
        exact ⟨fun _ h => by cases h; exact href, hmethods⟩
    refine (parallel_declareClass hl name hparts.1 hparts.2).bind ?_
    intro _ _ _
    exact .pure .normal

end Statements

/-! ### Programs -/

namespace Pairing

variable (P : Pairing)

/-- With any bound, and in the second run with any greater one, trees further
down run alike. -/
theorem evaluates_executes {fuel fuel' : Nat} (hle : fuel ≤ fuel') :
    P.Evaluates (Eval.evaluate fuel) (Eval.evaluate fuel') ∧
      P.Executes (Eval.execute fuel) (Eval.execute fuel') := by
  induction fuel generalizing fuel' with
  | zero => exact ⟨fun _ _ => .exhausted, fun _ _ => .exhausted⟩
  | succ fuel ih =>
    cases fuel' with
    | zero => cases hle
    | succ fuel' =>
      have hle' := Nat.le_of_succ_le_succ hle
      obtain ⟨hev, hex⟩ := ih hle'
      exact ⟨evaluates_succ hev hex, executes_succ hle' hev hex⟩

/-- A program further down runs as the program does, with any greater bound. -/
theorem executeProgram {fuel fuel' : Nat} (hle : fuel ≤ fuel') {l : Nat} (hl : P.IsOffset l)
    {ss : List Stmt} (hss : Stmt.boundList ss ≤ P.bound) :
    Parallel P (fun _ _ => True) (Eval.executeProgram fuel ss)
      (Eval.executeProgram fuel' (Stmt.shiftList P.rename l ss)) := by
  have hex : P.Executes (Eval.execute fuel) (Eval.execute fuel') := (P.evaluates_executes hle).2
  induction ss with
  | nil => exact .pure trivial
  | cons s rest ih =>
    obtain ⟨hs, hrest⟩ := Nat.max_le.1 hss
    refine (hex hl hs).bind ?_
    intro _ _ _
    exact ih hrest

end Pairing

end Lox
