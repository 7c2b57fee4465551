import Lox.Proofs.Grammar.Origins
import Lox.Proofs.Heap
import Lox.Proofs.Output.Evaluation

/-!
# The lines of runtime errors

A program that is made of tokens runs on values that are: the functions in frames and
fields, and the methods of classes, were declared by trees over these tokens. Whatever
goes wrong is reported on the line of a word or sign of the tree at hand, and this is
the line of a token, however long ago the tree was declared. Only a literal has no line:
where the print of a literal is refused, the error has line zero.
-/

namespace Lox

variable {α β : Type} {M : Token → Prop}

/-! ### The lines of expressions -/

/-- A literal in any number of parentheses. -/
def Expr.IsLiteral : Expr → Prop
  | .literal _ => True
  | .group inner => inner.IsLiteral
  | _ => False

/-- A literal has no line of its own. -/
theorem Expr.IsLiteral.line_eq {e : Expr} (h : e.IsLiteral) : e.line = 0 := by
  fun_induction Expr.IsLiteral e with
  | case1 => rfl
  | case2 inner ih => exact ih h
  | case3 => cases h

/-- An expression has the line of a token, or it is a literal. -/
theorem Expr.Over.line {e : Expr} (h : e.Over M) : IsLineOf M e.line ∨ e.IsLiteral := by
  cases e with
  | literal value => exact .inr trivial
  | group inner => exact Expr.Over.line (e := inner) h
  | unary | binary | logical | super => exact .inl h.1
  | var ref => exact .inl (Name.IsOf.line h)
  | assign ref value => exact .inl h.1.line
  | call callee arguments line => exact .inl h.2.2
  | get object name => exact .inl h.2.line
  | set object name value => exact .inl h.2.1.line
  | this id line => exact .inl h

/-! ### Values -/

section Values

variable (M)

/-- All methods of a class and its superclasses were declared over the tokens. -/
def Class.Over (cls : Class) : Prop :=
  ∀ c ∈ cls.chain, ∀ method ∈ c.methods, FunDecl.Over M method.decl

/-- All functions that a value can be asked to run were declared over the tokens. -/
def Value.Over : Value → Prop
  | .function _ c => FunDecl.Over M c.decl
  | .cls c => c.Over M
  | .object _ c => c.Over M
  | _ => True

/-- All functions in frames and fields were declared over the tokens. -/
structure Store.Over (store : Store) : Prop where
  /-- The values of variables are over the tokens. -/
  frames : ∀ i x v, (store.frame i).get? x = some v → v.Over M
  /-- The values of fields are over the tokens. -/
  fields : ∀ object x v, store.field? object x = some v → v.Over M

end Values

/-- A method that is found was declared over the tokens. -/
theorem Class.Over.findMethod? {cls : Class} (h : cls.Over M) {text : String} {method : Closure}
    (hfind : cls.findMethod? text = some method) : FunDecl.Over M method.decl := by
  obtain ⟨c, hc, hmethod, -⟩ := Class.findMethod?_mem hfind
  exact h c hc method hmethod

/-- A class that is declared has its own methods and those of its superclass. -/
theorem Class.Over.declared {id : Nat} {name : String} {parent : Option Class}
    {methods : List Closure} (hparent : ∀ c ∈ parent, Class.Over M c)
    (hmethods : ∀ method ∈ methods, FunDecl.Over M method.decl) :
    (⟨id, name, parent, methods⟩ : Class).Over M := by
  cases parent with
  | none =>
    intro c hc
    rw [List.mem_singleton.1 hc]
    exact hmethods
  | some superclass =>
    intro c hc
    rcases List.mem_cons.1 hc with rfl | hc
    · exact hmethods
    · exact hparent superclass rfl c hc

namespace Store

variable {store : Store}

namespace Over

variable (h : store.Over M)

include h

/-- Binding a value that was declared over the tokens keeps the store so. -/
theorem bindIn {v : Value} (hv : v.Over M) (i : Nat) (x : String) :
    (store.bindIn i x v).Over M := by
  refine ⟨fun j y u hu => ?_, h.fields⟩
  rcases get?_of_bindIn hu with rfl | hold
  · exact hv
  · exact h.frames j y u hold

/-- Declaring a name with such a value keeps the store so. -/
theorem define {v : Value} (hv : v.Over M) (env : Env) (x : String) :
    (store.define env x v).Over M := by
  cases env with
  | nil => exact h
  | cons i rest => exact h.bindIn hv i x

/-- Setting a field to such a value keeps the store so. -/
theorem setField {v : Value} (hv : v.Over M) (object : Nat) (x : String) :
    (store.setField object x v).Over M := by
  refine ⟨h.frames, fun other y u hu => ?_⟩
  rcases field?_of_setField hu with rfl | hold
  · exact hv
  · exact h.fields other y u hold

/-- A frame of such values keeps the store so. -/
theorem newFrame {bindings : Bindings} (hb : ∀ x v, bindings.get? x = some v → v.Over M)
    (env : Env) : (store.newFrame env bindings).2.Over M := by
  refine ⟨fun i x v hv => ?_, h.fields⟩
  by_cases hnew : i = store.frames.size
  · rw [hnew, frame_newFrame_self] at hv
    exact hb x v hv
  · rw [frame_newFrame_of_ne hnew] at hv
    exact h.frames i x v hv

/-- A new object has no fields yet. -/
theorem newObject : store.newObject.2.Over M :=
  ⟨h.frames, fun object x v hv => h.fields object x v (field?_of_newObject hv)⟩

/-- Handing out an identity changes neither frames nor fields. -/
theorem freshId : store.freshId.2.Over M := ⟨h.frames, h.fields⟩

/-- What is found in a frame was declared over the tokens. -/
theorem getAt {env : Env} {d : Nat} {x : String} {v : Value} (hv : store.getAt env d x = .ok v) :
    v.Over M := by
  obtain ⟨i, hi⟩ := get?_of_getAt hv
  exact h.frames i x v hi

end Over

end Store

/-! ### Steps whose errors have lines -/

namespace Point

/-- The print of a literal is refused, and the error is the given one. -/
def RefusesLiteral (q : Point) (error : RuntimeError) : Prop :=
  ∃ e refusal, q.task = .execute (.print e) ∧ e.IsLiteral ∧ q.Refuses refusal ∧
    refusal.error = error

end Point

/-- An error has the line of a token, unless one of the points that were visited is the
refused print of a literal. -/
def Located (M : Token → Prop) (visited : List Point) (error : RuntimeError) : Prop :=
  IsLineOf M error.line ∨ ∃ q ∈ visited, q.RefusesLiteral error

/-- An error is located among more points, too. -/
theorem Located.mono {visited others : List Point} {error : RuntimeError}
    (h : Located M visited error) (hsub : visited ⊆ others) : Located M others error := by
  rcases h with hline | ⟨q, hq, hrefuses⟩
  · exact .inl hline
  · exact .inr ⟨q, hsub hq, hrefuses⟩

/-- On values over some tokens a step yields what is stated and leaves such values, or its
error is located. -/
def Locates (M : Token → Prop) (visits : Machine → List Point) (A : α → Prop) (p : Eval α) :
    Prop :=
  ∀ m : Machine, m.store.Over M →
    match p m with
    | .ok a after => A a ∧ after.store.Over M
    | .error halt _ => ∀ error, halt = .error error → Located M (visits m) error

/-- The points of a step that enters nothing. -/
abbrev nowhereElse : Machine → List Point := fun _ => []

namespace Locates

variable {visits others : Machine → List Point} {A : α → Prop} {B : β → Prop} {p : Eval α}
  {f : α → Eval β}

/-- A step that yields something at once raises no error. -/
theorem pure {a : α} (h : A a) : Locates M visits A (Pure.pure a) := fun _ hm => ⟨h, hm⟩

/-- A failure on the line of a token is located. -/
theorem fail {line : Nat} (h : IsLineOf M line) (cause : RuntimeCause) :
    Locates M visits A (Eval.fail line cause) := by
  rintro m - error herror
  cases herror
  exact .inl h

/-- A fault is no runtime error. -/
theorem fault (fault : Fault) : Locates M visits A (throw (.fault fault) : Eval α) := by
  rintro m - error herror
  cases herror

/-- Looking at the result of an operation that may be at fault raises no runtime error. -/
theorem orFault {r : Except Fault α} (h : ∀ a, r = .ok a → A a) :
    Locates M visits A (Eval.orFault r) := by
  cases r with
  | ok a => exact pure (h a rfl)
  | error e => exact fault e

/-- More points are visited. -/
theorem mono (h : Locates M visits A p) (hsub : ∀ m, visits m ⊆ others m) :
    Locates M others A p := by
  intro m hm
  have hresult := h m hm
  revert hresult
  cases p m with
  | ok a after => exact id
  | error halt after => exact fun hresult error herror => (hresult error herror).mono (hsub m)

/-- A step that enters nothing may stand where something is entered. -/
theorem still (h : Locates M nowhereElse A p) : Locates M visits A p :=
  h.mono fun _ => List.nil_subset _

/-- The task itself is visited first. -/
theorem enter (h : Locates M visits A p) (point : Machine → Point)
    (heq : ∀ m, others m = point m :: visits m) : Locates M others A p := by
  refine h.mono fun m => ?_
  rw [heq m]
  exact List.subset_cons_self _ _

/-- A second step is located among the points that are visited after the first. -/
theorem bind {next : α → Machine → List Point} (hp : Locates M visits A p)
    (hf : ∀ a, A a → Locates M (next a) B (f a)) :
    Locates M (fun m => visits m ++ afterOk (p m) next) B (p >>= f) := by
  intro m hm
  have hfirst := hp m hm
  rw [bind_apply]
  dsimp only
  revert hfirst
  cases p m with
  | error halt after =>
    intro hfirst error herror
    exact (hfirst error herror).mono (List.subset_append_left _ _)
  | ok a after =>
    rintro ⟨ha, hafter⟩
    have hsecond := hf a ha after hafter
    dsimp only
    revert hsecond
    cases f a after with
    | ok b last => exact id
    | error halt last =>
      intro hsecond error herror
      exact (hsecond error herror).mono (List.subset_append_right _ _)

/-- What comes after a step enters nothing. -/
theorem bindStill (hp : Locates M visits A p) (hf : ∀ a, A a → Locates M nowhereElse B (f a)) :
    Locates M visits B (p >>= f) := by
  refine (hp.bind hf).mono fun m => ?_
  have hnone : afterOk (p m) (fun _ => nowhereElse) = [] := by
    cases p m <;> rfl
  rw [hnone, List.append_nil]
  exact List.Subset.refl _

/-- What comes before a step enters nothing. -/
theorem stillBind (next : α → Machine → List Point) (hp : Locates M nowhereElse A p)
    (hf : ∀ a, A a → Locates M (next a) B (f a)) (heq : ∀ m, visits m = afterOk (p m) next) :
    Locates M visits B (p >>= f) := by
  refine (hp.bind hf).mono fun m => ?_
  rw [heq m]
  exact List.Subset.refl _

/-- A step that looks at the machine first. -/
theorem ask {f : Machine → Eval α} (next : Machine → Machine → List Point)
    (hf : ∀ m, m.store.Over M → Locates M (next m) A (f m)) (heq : ∀ m, visits m = next m m) :
    Locates M visits A (get >>= f) := by
  intro m hm
  rw [get_bind_apply, heq m]
  exact hf m hm m hm

/-- The environment plays no part in the lines of errors. -/
theorem inEnv (hp : Locates M visits A p) (env : Env) :
    Locates M (fun m => visits { m with env := env }) A (Eval.inEnv env p) := by
  intro m hm
  have hinner := hp { m with env := env } hm
  rw [inEnv_apply]
  revert hinner
  cases p { m with env := env } with
  | ok a after => exact id
  | error halt after => exact id

/-- The number of calls plays no part in the lines of errors. -/
theorem asCall (hp : Locates M visits A p) :
    Locates M (fun m => visits { m with calls := m.calls + 1 }) A (Eval.asCall p) := by
  intro m hm
  have hinner := hp { m with calls := m.calls + 1 } hm
  rw [asCall_apply]
  revert hinner
  cases p { m with calls := m.calls + 1 } with
  | ok a after => exact id
  | error halt after => exact id

/-- A change of the store that yields a result. -/
theorem onStore {change : Store → α × Store}
    (h : ∀ store, store.Over M → A (change store).1 ∧ (change store).2.Over M) :
    Locates M visits A (Eval.onStore change) :=
  fun m hm => h m.store hm

end Locates

/-! ### Names, properties and methods -/

section Steps

variable {v object : Value} {ref : Ref} {name : Name}

/-- A declaration never fails. -/
theorem locates_define (hv : v.Over M) (x : String) :
    Locates M nowhereElse Any (Eval.define x v) :=
  fun m hm => ⟨trivial, hm.define hv m.env x⟩

/-- Making a frame never fails. -/
theorem locates_newFrame {bindings : Bindings} (env : Env)
    (hb : ∀ x v, bindings.get? x = some v → v.Over M) :
    Locates M nowhereElse Any (Eval.newFrame env bindings) :=
  .onStore fun _ hstore => ⟨trivial, hstore.newFrame hb env⟩

/-- Handing out an identity never fails. -/
theorem locates_freshId : Locates M nowhereElse Any (Eval.onStore (·.freshId)) :=
  .onStore fun _ hstore => ⟨trivial, hstore.freshId⟩

/-- A variable that is not found is reported on the line of its name. -/
theorem locates_readRef (hline : IsLineOf M ref.name.line) :
    Locates M nowhereElse (Value.Over M) (Eval.readRef ref) := by
  refine .ask (fun _ => nowhereElse) (fun m hm => ?_) fun _ => rfl
  split
  · exact .orFault fun v hv => hm.getAt hv
  · unfold Store.read
    rw [Store.get?_globalEnv]
    cases hv : (m.store.frame 0).get? ref.name.text with
    | none => exact .fail hline _
    | some v => exact .pure (hm.frames 0 _ v hv)

/-- So is one that is assigned to. -/
theorem locates_writeRef (hname : ref.name.IsOf M) (hv : v.Over M) :
    Locates M nowhereElse Any (Eval.writeRef ref v) := by
  refine .ask (fun _ => nowhereElse) (fun m hm => ?_) fun _ => rfl
  have hbind (i : Nat) :
      Locates M nowhereElse Any (Eval.modifyStore (·.bindIn i ref.name.text v)) :=
    fun m hm => ⟨trivial, hm.bindIn hv i _⟩
  split
  · exact Locates.bindStill (A := Any) (.orFault fun _ _ => trivial) fun found _ => hbind found.1
  · split
    · exact hbind _
    · exact .fail hname.line _

/-- A function that is made was declared over the tokens. -/
theorem locates_newFunction {c : Closure} (hc : FunDecl.Over M c.decl) :
    Locates M nowhereElse (Value.Over M) (Eval.newFunction c) :=
  locates_freshId.bindStill fun _ _ => .pure hc

/-- The value of the only name of a frame is that of the frame. -/
theorem over_single {x y : String} {u : Value} (hv : v.Over M)
    (h : Bindings.get? [(x, v)] y = some u) : u.Over M := by
  unfold Bindings.get? at h
  split at h
  · cases h
    exact hv
  · cases h

/-- A method that is bound was declared over the tokens. -/
theorem locates_bindMethod {c : Closure} (hc : FunDecl.Over M c.decl) (hv : object.Over M) :
    Locates M nowhereElse (fun bound => FunDecl.Over M bound.decl) (Eval.bindMethod c object) :=
  (locates_newFrame c.env fun _ _ h => over_single hv h).bindStill fun _ _ => .pure hc

/-- A method that was looked up, bound to an object. -/
theorem locates_boundMethod {cls : Class} (hcls : cls.Over M) (hv : object.Over M) {text : String}
    {method : Closure} (hfind : cls.findMethod? text = some method) :
    Locates M nowhereElse (Value.Over M) (Eval.bindMethod method object >>= Eval.newFunction) :=
  (locates_bindMethod (hcls.findMethod? hfind) hv).bindStill fun _ hc => locates_newFunction hc

/-- A property that is not found, or not to be had, is reported on the line of its name. -/
theorem locates_getProperty (hv : object.Over M) (hname : name.IsOf M) :
    Locates M nowhereElse (Value.Over M) (Eval.getProperty object name) := by
  cases object with
  | object id cls =>
    refine .ask (fun _ => nowhereElse) (fun m hm => ?_) fun _ => rfl
    split
    · rename_i u hu
      exact .pure (hm.fields id _ u hu)
    · split
      · rename_i method hfind
        exact locates_boundMethod hv hv hfind
      · exact .fail hname.line _
  | _ => exact .fail hname.line _

/-- A method of the superclass that is not found is reported on the line of its name. -/
theorem locates_superMethod (id : Nat) (hname : name.IsOf M) :
    Locates M nowhereElse (Value.Over M) (Eval.superMethod id name) := by
  refine .ask (fun _ => nowhereElse) (fun m hm => ?_) fun _ => rfl
  split
  · exact .fault _
  · rename_i distance _
    have hinside : ∀ o, Eval.objectInside m distance = .ok o → o.Over M := by
      intro o ho
      cases distance with
      | zero => cases ho
      | succ d => exact hm.getAt ho
    refine Locates.bindStill (A := Value.Over M) (.orFault fun u hu => hm.getAt hu)
      fun superclass hs => ?_
    refine Locates.bindStill (A := Value.Over M) (.orFault hinside) fun o ho => ?_
    split
    · split
      · rename_i found hfind
        exact locates_boundMethod hs ho hfind
      · exact .fail hname.line _
    · exact .fault _

/-! ### Operators -/

variable {line : Nat}

/-- A unary operator reports on its own line. -/
theorem locates_applyUnary (hline : IsLineOf M line) (op : UnaryOp) (v : Value) :
    Locates M nowhereElse (Value.Over M) (Eval.applyUnary op line v) := by
  unfold Eval.applyUnary
  split
  · exact .pure trivial
  · exact .pure trivial
  · exact .fail hline _

/-- An operator on numbers reports on its own line. -/
theorem locates_numeric (hline : IsLineOf M line) (u v : Value) {apply : Float → Float → Value}
    (h : ∀ a b, (apply a b).Over M) :
    Locates M nowhereElse (Value.Over M) (Eval.numeric line u v apply) := by
  unfold Eval.numeric
  split
  · exact .pure (h _ _)
  · exact .fail hline _

/-- A binary operator reports on its own line. -/
theorem locates_applyBinary (hline : IsLineOf M line) (op : BinaryOp) (u v : Value) :
    Locates M nowhereElse (Value.Over M) (Eval.applyBinary op line u v) := by
  cases op with
  | add =>
    change Locates _ _ _ (Eval.add line u v)
    unfold Eval.add
    split
    · exact .pure trivial
    · exact .pure trivial
    · exact .fail hline _
  | equal => exact .pure trivial
  | notEqual => exact .pure trivial
  | _ => exact locates_numeric hline u v fun _ _ => trivial

end Steps

/-! ### Lists and loops -/

/-- A statement that ends a call yields a value over the tokens. -/
def Flow.Over (M : Token → Prop) : Flow → Prop
  | .normal => True
  | .returned v => v.Over M

section Lists

variable {evaluate : Expr → Eval Value} {execute : Stmt → Eval Flow}
  {evaluated : Expr → Machine → List Point} {executed : Stmt → Machine → List Point}

/-- Errors of arguments are located among the points that these visit. -/
theorem locates_evaluateAll
    (h : ∀ e, e.Over M → Locates M (evaluated e) (Value.Over M) (evaluate e)) {es : List Expr}
    (hes : ∀ e ∈ es, e.Over M) :
    Locates M (visitsEach evaluate evaluated es) (fun vs => ∀ v ∈ vs, Value.Over M v)
      (Eval.evaluateAll evaluate es) := by
  induction es with
  | nil => exact .pure nofun
  | cons e rest ih =>
    rw [List.forall_mem_cons] at hes
    refine (h e hes.1).bind fun v hv => (ih hes.2).bindStill fun vs hvs => .pure ?_
    exact List.forall_mem_cons.2 ⟨hv, hvs⟩

/-- Errors of an expression that may be absent are located among the points that it visits. -/
theorem locates_evaluateOption
    (h : ∀ e, e.Over M → Locates M (evaluated e) (Value.Over M) (evaluate e)) {e : Option Expr}
    (he : OverOption M e) :
    Locates M (visitsOption evaluated e) (Value.Over M) (Eval.evaluateOption evaluate e) := by
  cases e with
  | none => exact .pure trivial
  | some e => exact h e he

/-- Errors of statements are located among the points that these visit. -/
theorem locates_executeAll
    (h : ∀ s, s.Over M → Locates M (executed s) (Flow.Over M) (execute s)) {ss : List Stmt}
    (hss : ∀ s ∈ ss, s.Over M) :
    Locates M (visitsAll execute executed ss) (Flow.Over M) (Eval.executeAll execute ss) := by
  induction ss with
  | nil => exact .pure trivial
  | cons s rest ih =>
    rw [List.forall_mem_cons] at hss
    refine (h s hss.1).bind fun flow hflow => ?_
    cases flow with
    | normal => exact ih hss.2
    | returned v => exact .pure hflow

/-- Errors of a loop are located among the points that its rounds visit. -/
theorem locates_repeatWhile {condition : Eval Value} {body : Eval Flow}
    {tested repeated : Machine → List Point} (hc : Locates M tested (Value.Over M) condition)
    (hb : Locates M repeated (Flow.Over M) body) (n : Nat) :
    Locates M (visitsWhile condition body tested repeated n) (Flow.Over M)
      (Eval.repeatWhile condition body n) := by
  induction n with
  | zero =>
    rintro m - error herror
    cases herror
  | succ n ih =>
    refine hc.bind fun v _ => ?_
    by_cases hv : v.isTruthy = true
    · rw [if_pos hv]
      simp only [if_pos hv]
      refine hb.bind fun flow hflow => ?_
      cases flow with
      | normal => exact ih
      | returned v => exact .pure hflow
    · rw [if_neg hv]
      exact .pure trivial

/-! ### Calls and classes -/

variable {vs : List Value}

/-- Parameters are bound to the arguments, so to values that were declared over the tokens. -/
theorem over_parameters (names : List String) (hvs : ∀ v ∈ vs, v.Over M) (x : String) (u : Value)
    (h : (Bindings.insertAll [] (names.zip vs)).get? x = some u) : u.Over M := by
  rcases Bindings.get?_of_insertAll h with hnone | hmem
  · cases hnone
  · exact hvs u (List.of_mem_zip hmem).2

/-- Errors of a function are located among the points of its body. -/
theorem locates_invoke (h : ∀ s, s.Over M → Locates M (executed s) (Flow.Over M) (execute s))
    {c : Closure} (hc : FunDecl.Over M c.decl) (hvs : ∀ v ∈ vs, v.Over M) :
    Locates M (fun m => visitsAll execute executed c.decl.body (c.inside vs m)) (Value.Over M)
      (Eval.invoke execute c vs) := by
  refine .stillBind (fun env m => visitsAll execute executed c.decl.body { m with env := env })
    (locates_newFrame _ (over_parameters _ hvs)) (fun env _ => ?_) fun m => rfl
  refine ((locates_executeAll h hc.body).inEnv env).bindStill fun flow hflow => ?_
  split
  · exact .ask (fun _ => nowhereElse) (fun m hm => .orFault fun u hu => hm.getAt hu) fun _ => rfl
  · cases flow with
    | normal => exact .pure trivial
    | returned v => exact .pure hflow

/-- Errors of an initializer are located among the points of its body. -/
theorem locates_construct (h : ∀ s, s.Over M → Locates M (executed s) (Flow.Over M) (execute s))
    {cls : Class} (hcls : cls.Over M) (hvs : ∀ v ∈ vs, v.Over M) :
    Locates M (fun m => visitsBody execute executed (Callable.start? m (.cls cls)) vs)
      (Value.Over M) (Eval.construct execute cls vs) := by
  have hnew : Locates M nowhereElse Any (Eval.onStore (·.newObject)) :=
    .onStore fun _ hstore => ⟨trivial, hstore.newObject⟩
  refine .stillBind (fun id m => cls.initializer?.elim [] fun method =>
      visitsAll execute executed method.decl.body
        (Closure.inside
          { method with env := (m.store.newFrame method.env [("this", .object id cls)]).1 } vs
          { m with store := (m.store.newFrame method.env [("this", .object id cls)]).2 }))
    hnew (fun id _ => ?_) fun m => ?_
  · have hobject : Value.Over M (.object id cls) := hcls
    dsimp only
    cases hinit : cls.initializer? with
    | none => exact .pure hobject
    | some method =>
      refine .stillBind
        (fun bound m => visitsAll execute executed bound.decl.body (bound.inside vs m))
        (locates_bindMethod (hcls.findMethod? hinit) hobject) (fun bound hbound => ?_) fun m => rfl
      exact (locates_invoke h hbound hvs).bindStill fun _ _ => .pure hobject
  · rw [Callable.start?]
    cases cls.initializer? <;> rfl

/-- A value that can be called runs what was declared over the tokens. -/
theorem locates_apply (h : ∀ s, s.Over M → Locates M (executed s) (Flow.Over M) (execute s))
    {callee : Value} (hcallee : callee.Over M) {callable : Callable}
    (hcallable : callee.callable? = some callable) (hvs : ∀ v ∈ vs, v.Over M) :
    Locates M (fun m => visitsBody execute executed (callable.start? m) vs) (Value.Over M)
      (Eval.apply execute callable vs) := by
  cases callee with
  | native id f =>
    cases hcallable
    have hclock : Locates M nowhereElse Any Eval.readClock := fun _ hm => ⟨trivial, hm⟩
    exact (hclock.bindStill fun _ _ => .pure trivial).still
  | function id c =>
    cases hcallable
    exact locates_invoke h hcallee hvs
  | cls cls =>
    cases hcallable
    exact locates_construct h hcallee hvs
  | _ => cases hcallable

/-- A call reports what it refuses on its own line, and other errors are located in the body. -/
theorem locates_callValue (h : ∀ s, s.Over M → Locates M (executed s) (Flow.Over M) (execute s))
    {callee : Value} (hcallee : callee.Over M) (hvs : ∀ v ∈ vs, v.Over M) {line : Nat}
    (hline : IsLineOf M line) :
    Locates M (visitsCall execute executed callee vs) (Value.Over M)
      (Eval.callValue execute callee vs line) := by
  unfold Eval.callValue visitsCall
  cases hcallable : callee.callable? with
  | none => exact .fail hline _
  | some callable =>
    dsimp only
    by_cases harity : vs.length ≠ callable.arity
    · simp only [if_pos harity]
      exact .fail hline _
    · simp only [if_neg harity]
      refine .ask (fun m m' =>
          if Machine.maxCalls ≤ m.calls then []
          else visitsBody execute executed (callable.start? { m' with calls := m'.calls + 1 }) vs)
        (fun m _ => ?_) fun m => rfl
      by_cases hcalls : Machine.maxCalls ≤ m.calls
      · simp only [if_pos hcalls]
        exact .fail hline _
      · simp only [if_neg hcalls]
        exact (locates_apply h hcallee hcallable hvs).asCall

end Lists

/-- A declaration of a class reports on the line of the superclass. -/
theorem locates_declareClass {name : Name} {superclass : Option Ref} {methods : List FunDecl}
    (hs : OverParent M superclass) (hmethods : ∀ f ∈ methods, FunDecl.Over M f) :
    Locates M nowhereElse Any (Eval.declareClass name superclass methods) := by
  have hread : Locates M nowhereElse (fun parent => ∀ c ∈ parent, Class.Over M c)
      (Eval.readSuperclass superclass) := by
    cases superclass with
    | none => exact .pure nofun
    | some ref =>
      refine (locates_readRef hs.line).bindStill fun v hv => ?_
      split
      · refine .pure fun c hc => ?_
        cases hc
        exact hv
      · exact .fail hs.line _
  refine (locates_define (v := .nil) trivial _).bindStill fun _ _ => ?_
  refine hread.bindStill fun parent hparent => ?_
  refine .ask (fun _ => nowhereElse) (fun m _ => ?_) fun _ => rfl
  have henv : Locates M nowhereElse Any (Eval.methodEnv m.env parent) := by
    cases parent with
    | none => exact .pure trivial
    | some c =>
      have hc : Value.Over M (.cls c) := hparent c rfl
      exact locates_newFrame _ fun _ _ hget => over_single hc hget
  refine henv.bindStill fun env _ => locates_freshId.bindStill fun id _ => ?_
  refine locates_define (v := .cls _) (Class.Over.declared hparent fun c hc => ?_) _
  rw [Eval.closeMethods, List.mem_reverse, List.mem_map] at hc
  obtain ⟨f, hf, rfl⟩ := hc
  exact hmethods f hf

/-! ### Expressions and statements -/

/-- What is known of evaluation with some bound. -/
structure LocatesWithin (M : Token → Prop) (fuel : Nat) : Prop where
  /-- Expressions over tokens yield values over them, and their errors are located. -/
  expression : ∀ e, e.Over M →
    Locates M (visitsEvaluate fuel e) (Value.Over M) (Eval.evaluate fuel e)
  /-- Statements over tokens return values over them, and their errors are located. -/
  statement : ∀ s, s.Over M →
    Locates M (visitsExecute fuel s) (Flow.Over M) (Eval.execute fuel s)

section Evaluation

variable {fuel : Nat}

/-- With one more unit of fuel, errors of an expression are located among the points that
it visits. -/
theorem locates_evaluate_succ (h : LocatesWithin M fuel) {e : Expr} (hover : e.Over M) :
    Locates M (visitsEvaluate (fuel + 1) e) (Value.Over M) (Eval.evaluate (fuel + 1) e) := by
  have he := h.expression
  have henter : ∀ {visits : Machine → List Point},
      Locates M visits (Value.Over M) (Eval.evaluate (fuel + 1) e) →
      (∀ m, visitsEvaluate (fuel + 1) e m = ⟨fuel + 1, .evaluate e, m⟩ :: visits m) →
      Locates M (visitsEvaluate (fuel + 1) e) (Value.Over M) (Eval.evaluate (fuel + 1) e) :=
    fun hbody heq => hbody.enter (fun m => ⟨fuel + 1, .evaluate e, m⟩) heq
  cases e with
  | literal l =>
    refine Locates.pure ?_
    cases l <;> trivial
  | group inner => exact henter (he inner hover) fun _ => rfl
  | unary op line operand =>
    refine henter ((he operand hover.2).bindStill fun v _ => ?_) fun _ => rfl
    exact locates_applyUnary hover.1 op v
  | binary op line left right =>
    refine henter ((he left hover.2.1).bind fun v _ => ?_) fun _ => rfl
    exact (he right hover.2.2).bindStill fun w _ => locates_applyBinary hover.1 op v w
  | logical op line left right =>
    refine henter ((he left hover.2.1).bind fun v hv => ?_) fun _ => rfl
    cases op.isDecided v with
    | true => exact .pure hv
    | false => exact he right hover.2.2
  | var ref => exact (locates_readRef (Name.IsOf.line hover)).still
  | assign ref value =>
    refine henter ((he value hover.2).bindStill fun v hv => ?_) fun _ => rfl
    exact (locates_writeRef hover.1 hv).bindStill fun _ _ => .pure hv
  | call callee arguments line =>
    refine henter ((he callee hover.1).bind fun f hf => ?_) fun _ => rfl
    refine (locates_evaluateAll he hover.2.1.mem).bind fun vs hvs => ?_
    exact locates_callValue h.statement hf hvs hover.2.2
  | get object name =>
    refine henter ((he object hover.1).bindStill fun v hv => ?_) fun _ => rfl
    exact locates_getProperty hv hover.2
  | set object name value =>
    refine henter ((he object hover.1).bind fun o _ => ?_) fun _ => rfl
    cases o with
    | object id cls =>
      refine (he value hover.2.2).bindStill fun v hv => ?_
      have hset : Locates M nowhereElse Any (Eval.modifyStore (·.setField id name.text v)) :=
        fun m hm => ⟨trivial, hm.setField hv id _⟩
      exact hset.bindStill fun _ _ => .pure hv
    | _ => exact .fail hover.2.1.line _
  | this id line =>
    have hread : Locates M nowhereElse (Value.Over M) (Eval.readRef ⟨id, thisName line⟩) :=
      locates_readRef hover
    exact hread.still
  | super id line method => exact (locates_superMethod id hover.2).still

/-- A print whose value is known is accepted, or it is refused. -/
theorem printed_cases {e : Expr} {m m' : Machine} {v : Value}
    (h : Eval.evaluate fuel e m = .ok v m') :
    printed e.line v m' = .ok .normal { m' with sink := (m'.sink.take v.display).take "\n" } ∨
      ∃ refusal, Point.Refuses ⟨fuel + 1, .execute (.print e), m⟩ refusal ∧
        refusal.line = e.line ∧
        printed e.line v m' = .error (.error refusal.error) refusal.machine := by
  cases hvalue : m'.sink.refuses with
  | true =>
    refine .inr ⟨_, .value h hvalue, rfl, ?_⟩
    rw [printed, bind_apply, write_of_full hvalue]
    rfl
  | false =>
    cases hbreak : (m'.sink.take v.display).refuses with
    | true =>
      refine .inr ⟨_, .lineBreak h hvalue hbreak, rfl, ?_⟩
      rw [printed, bind_of_ok (write_of_room hvalue _ _), bind_apply, write_of_full hbreak]
      rfl
    | false => exact .inl (printed_of_room _ _ hvalue hbreak)

/-- A refused print is reported on the line of what was to be printed. -/
theorem locates_print (h : LocatesWithin M fuel) {e : Expr} (hover : e.Over M) :
    Locates M (visitsExecute (fuel + 1) (.print e)) (Flow.Over M)
      (Eval.execute (fuel + 1) (.print e)) := by
  intro m hm
  have hvalue := h.expression e hover m hm
  have hsteps : Eval.execute (fuel + 1) (.print e) m =
      (Eval.evaluate fuel e >>= printed e.line) m := rfl
  rw [hsteps]
  cases heval : Eval.evaluate fuel e m with
  | error halt after =>
    rw [heval] at hvalue
    rw [bind_apply, heval]
    intro error herror
    exact (hvalue error herror).mono (List.subset_cons_self _ _)
  | ok v after =>
    rw [heval] at hvalue
    rw [bind_of_ok heval]
    rcases printed_cases heval with hprinted | ⟨refusal, hrefuses, hline, hprinted⟩
    · rw [hprinted]
      exact ⟨trivial, hvalue.2⟩
    · rw [hprinted]
      intro error herror
      cases herror
      rcases hover.line with hof | hliteral
      · rw [← hline] at hof
        exact .inl hof
      · exact .inr ⟨_, List.mem_cons_self, e, refusal, rfl, hliteral, hrefuses, rfl⟩

/-- With one more unit of fuel, errors of a statement are located among the points that it
visits. -/
theorem locates_execute_succ (h : LocatesWithin M fuel) {s : Stmt} (hover : s.Over M) :
    Locates M (visitsExecute (fuel + 1) s) (Flow.Over M) (Eval.execute (fuel + 1) s) := by
  have he := h.expression
  have hs := h.statement
  have henter : ∀ {visits : Machine → List Point},
      Locates M visits (Flow.Over M) (Eval.execute (fuel + 1) s) →
      (∀ m, visitsExecute (fuel + 1) s m = ⟨fuel + 1, .execute s, m⟩ :: visits m) →
      Locates M (visitsExecute (fuel + 1) s) (Flow.Over M) (Eval.execute (fuel + 1) s) :=
    fun hbody heq => hbody.enter (fun m => ⟨fuel + 1, .execute s, m⟩) heq
  cases s with
  | print e => exact locates_print h hover
  | expression e =>
    exact henter ((he e hover).bindStill fun _ _ => .pure trivial) fun _ => rfl
  | varDecl name initializer =>
    refine henter ((locates_evaluateOption he hover.2).bindStill fun v hv => ?_) fun _ => rfl
    exact (locates_define hv _).bindStill fun _ _ => .pure trivial
  | block body =>
    have hbody : Locates M (fun m =>
          visitsAll (Eval.execute fuel) (visitsExecute fuel) body (m.inside m.env []))
        (Flow.Over M) (Eval.execute (fuel + 1) (.block body)) := by
      refine .ask (fun outer m =>
          visitsAll (Eval.execute fuel) (visitsExecute fuel) body (m.inside outer.env []))
        (fun outer _ => ?_) fun m => rfl
      refine .stillBind (fun env m =>
          visitsAll (Eval.execute fuel) (visitsExecute fuel) body { m with env := env })
        (locates_newFrame _ nofun) (fun env _ => ?_) fun m => rfl
      exact (locates_executeAll hs (Stmt.OverList.mem hover)).inEnv env
    exact henter hbody fun _ => rfl
  | branch condition yes no =>
    cases no with
    | none =>
      refine henter ((he condition hover.1).bind fun v _ => ?_) fun _ => rfl
      cases v.isTruthy with
      | true => exact hs yes hover.2
      | false => exact .pure trivial
    | some other =>
      refine henter ((he condition hover.1).bind fun v _ => ?_) fun _ => rfl
      cases v.isTruthy with
      | true => exact hs yes hover.2.1
      | false => exact hs other hover.2.2
  | loop condition body =>
    refine henter ?_ fun _ => rfl
    exact locates_repeatWhile (he condition hover.1) (hs body hover.2) fuel
  | funDecl function =>
    refine Locates.still (.ask (fun _ => nowhereElse) (fun m _ => ?_) fun _ => rfl)
    refine (locates_newFunction (c := ⟨function, m.env, false⟩) hover).bindStill fun v hv => ?_
    exact (locates_define hv _).bindStill fun _ _ => .pure trivial
  | result line value =>
    refine henter ((locates_evaluateOption he hover.2).bindStill fun v hv => ?_) fun _ => rfl
    exact .pure (A := Flow.Over M) (a := .returned v) hv
  | classDecl name superclass methods =>
    refine Locates.still ?_
    exact (locates_declareClass hover.2.1 hover.2.2.mem).bindStill fun _ _ => .pure trivial

end Evaluation

/-- Runs of any length locate their errors. -/
theorem locatesWithin (M : Token → Prop) (fuel : Nat) : LocatesWithin M fuel := by
  induction fuel with
  | zero =>
    refine ⟨fun e _ m _ error herror => ?_, fun s _ m _ error herror => ?_⟩
    · cases herror
    · cases herror
  | succ fuel ih =>
    exact ⟨fun _ he => locates_evaluate_succ ih he, fun _ hs => locates_execute_succ ih hs⟩

end Lox
