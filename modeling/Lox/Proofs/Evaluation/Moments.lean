import Lox.Proofs.Evaluation.Visits

/-!
# The moments of a run

The tasks of a run as they are begun and ended, in the order of time. A task that is
begun is ended after all that it enters, however it ends. What a task changes on its
own account, apart from what it enters, it changes just before its end; so a field is
set at the end of the expression that sets it. The tasks that are begun are the points
that the run visits.
-/

namespace Lox

variable {α : Type}

/-- A task is begun, or it is ended. -/
inductive Moment where
  /-- The task of a point begins. -/
  | begins (p : Point)
  /-- The task of a point is over. -/
  | ends (p : Point)

/-- A value that a field of an object was set to. -/
structure Write where
  /-- The number of the object. -/
  object : Nat
  /-- The name of the field. -/
  text : String
  /-- The value that the field was set to. -/
  value : Value

/-- What the task of a point sets at its end. -/
def Point.write? : Point → Option Write
  | ⟨fuel + 1, .evaluate (.set object name value), m⟩ =>
    match Eval.evaluate fuel object m with
    | .ok (.object id _) m₁ =>
      match Eval.evaluate fuel value m₁ with
      | .ok v _ => some ⟨id, name.text, v⟩
      | .error _ _ => none
    | _ => none
  | _ => none

/-- Only an expression sets a field. -/
theorem Point.write?_execute (fuel : Nat) (s : Stmt) (m : Machine) :
    Point.write? ⟨fuel, .execute s, m⟩ = none := by
  cases fuel <;> rfl

namespace Moment

/-- The machine at a moment. -/
def machine : Moment → Machine
  | .begins p => p.machine
  | .ends p => p.after

/-- The point that is begun at a moment. -/
def begun? : Moment → Option Point
  | .begins p => some p
  | .ends _ => none

/-- What was set just before a moment. -/
def writes : Moment → List Write
  | .begins _ => []
  | .ends p => p.write?.toList

end Moment

/-- What was set in the course of some moments, in the order of time. -/
def writesOf (moments : List Moment) : List Write := moments.flatMap Moment.writes

/-- The value that a field was last set to. -/
def lastWritten (object : Nat) (text : String) : List Write → Option Value
  | [] => none
  | w :: later =>
    (lastWritten object text later).or
      (if w.object = object ∧ w.text = text then some w.value else none)

/-- Of two stretches of writes the later one decides, if it has one for the field. -/
theorem lastWritten_append (object : Nat) (text : String) (earlier later : List Write) :
    lastWritten object text (earlier ++ later) =
      (lastWritten object text later).or (lastWritten object text earlier) := by
  induction earlier with
  | nil => exact (Option.or_none).symm
  | cons w rest ih => rw [List.cons_append, lastWritten, ih, lastWritten, Option.or_assoc]

/-- What was set in two stretches was set in one and then in the other. -/
theorem writesOf_append (earlier later : List Moment) :
    writesOf (earlier ++ later) = writesOf earlier ++ writesOf later :=
  List.flatMap_append

/-! ### The moments of a task -/

/-- The moments of a task, given those of all that it enters. -/
def Point.during (p : Point) (inner : List Moment) : List Moment :=
  .begins p :: inner ++ [.ends p]

/-- The moments after a step that yielded something; after one that did not, there
are none. -/
def momentsAfter (result : EStateM.Result Halt Machine α) (next : α → Machine → List Moment) :
    List Moment :=
  match result with
  | .ok a m => next a m
  | .error _ _ => []

section Lists

variable (evaluate : Expr → Eval Value) (execute : Stmt → Eval Flow)
  (evaluated : Expr → Machine → List Moment) (executed : Stmt → Machine → List Moment)

/-- The moments of expressions that are evaluated from left to right. -/
def momentsEach : List Expr → Machine → List Moment
  | [], _ => []
  | e :: rest, m => evaluated e m ++ momentsAfter (evaluate e m) fun _ => momentsEach rest

/-- The moments of statements, until one ends the call in progress. -/
def momentsAll : List Stmt → Machine → List Moment
  | [], _ => []
  | s :: rest, m =>
    executed s m ++ momentsAfter (execute s m) fun flow m' =>
      match flow with
      | .normal => momentsAll rest m'
      | .returned _ => []

/-- The moments of an expression that may be missing. -/
def momentsOption : Option Expr → Machine → List Moment
  | none, _ => []
  | some e, m => evaluated e m

/-- The moments of the body of a function that is run, if one is. -/
def momentsBody (start : Option (Closure × Machine)) (arguments : List Value) : List Moment :=
  match start with
  | none => []
  | some (c, m) => momentsAll execute executed c.decl.body (c.inside arguments m)

/-- The moments of a call, if it is made. -/
def momentsCall (callee : Value) (arguments : List Value) (m : Machine) : List Moment :=
  match callee.callable? with
  | none => []
  | some callable =>
    if arguments.length ≠ callable.arity then []
    else if Machine.maxCalls ≤ m.calls then []
    else momentsBody execute executed (callable.start? { m with calls := m.calls + 1 }) arguments

end Lists

/-- The moments of a loop that repeats at most a number of times. -/
def momentsWhile (condition : Eval Value) (body : Eval Flow)
    (tested repeated : Machine → List Moment) : Nat → Machine → List Moment
  | 0, _ => []
  | n + 1, m =>
    tested m ++ momentsAfter (condition m) fun v m₁ =>
      if v.isTruthy then
        repeated m₁ ++ momentsAfter (body m₁) fun flow m₂ =>
          match flow with
          | .normal => momentsWhile condition body tested repeated n m₂
          | .returned _ => []
      else []

/-- The moments of the superclass of a class, which is looked up once the name of the
class is bound. -/
def momentsParent (fuel : Nat) (name : Name) (superclass : Option Ref) (m : Machine) :
    List Moment :=
  match superclass with
  | none => []
  | some ref =>
    Point.during
      ⟨fuel, .evaluate (.var ref), { m with store := m.store.define m.env name.text .nil }⟩ []

mutual

/-- The moments of an expression. -/
def momentsEvaluate : Nat → Expr → Machine → List Moment
  | 0, e, m => Point.during ⟨0, .evaluate e, m⟩ []
  | fuel + 1, e, m =>
    Point.during ⟨fuel + 1, .evaluate e, m⟩
      (match e with
      | .literal _ => []
      | .group inner => momentsEvaluate fuel inner m
      | .unary _ _ operand => momentsEvaluate fuel operand m
      | .binary _ _ left right =>
        momentsEvaluate fuel left m ++
          momentsAfter (Eval.evaluate fuel left m) fun _ => momentsEvaluate fuel right
      | .logical op _ left right =>
        momentsEvaluate fuel left m ++
          momentsAfter (Eval.evaluate fuel left m) fun v m' =>
            if op.isDecided v then [] else momentsEvaluate fuel right m'
      | .var _ => []
      | .assign _ value => momentsEvaluate fuel value m
      | .call callee arguments _ =>
        momentsEvaluate fuel callee m ++
          momentsAfter (Eval.evaluate fuel callee m) fun f m₁ =>
            momentsEach (Eval.evaluate fuel) (momentsEvaluate fuel) arguments m₁ ++
              momentsAfter (Eval.evaluateAll (Eval.evaluate fuel) arguments m₁) fun vs m₂ =>
                momentsCall (Eval.execute fuel) (momentsExecute fuel) f vs m₂
      | .get object _ => momentsEvaluate fuel object m
      | .set object _ value =>
        momentsEvaluate fuel object m ++
          momentsAfter (Eval.evaluate fuel object m) fun o m' =>
            match o with
            | .object _ _ => momentsEvaluate fuel value m'
            | _ => []
      | .this _ _ => []
      | .super _ _ _ => [])

/-- The moments of a statement. -/
def momentsExecute : Nat → Stmt → Machine → List Moment
  | 0, s, m => Point.during ⟨0, .execute s, m⟩ []
  | fuel + 1, s, m =>
    Point.during ⟨fuel + 1, .execute s, m⟩
      (match s with
      | .expression e => momentsEvaluate fuel e m
      | .print e => momentsEvaluate fuel e m
      | .varDecl _ initializer => momentsOption (momentsEvaluate fuel) initializer m
      | .block body =>
        momentsAll (Eval.execute fuel) (momentsExecute fuel) body (m.inside m.env [])
      | .branch condition yes no =>
        momentsEvaluate fuel condition m ++
          momentsAfter (Eval.evaluate fuel condition m) fun v m' =>
            if v.isTruthy then momentsExecute fuel yes m'
            else
              match no with
              | none => []
              | some other => momentsExecute fuel other m'
      | .loop condition body =>
        momentsWhile (Eval.evaluate fuel condition) (Eval.execute fuel body)
          (momentsEvaluate fuel condition) (momentsExecute fuel body) fuel m
      | .funDecl _ => []
      | .result _ value => momentsOption (momentsEvaluate fuel) value m
      | .classDecl name superclass _ => momentsParent fuel name superclass m)

end

/-- The moments of a task, in the order of time. -/
def Point.moments : Point → List Moment
  | ⟨fuel, .evaluate e, m⟩ => momentsEvaluate fuel e m
  | ⟨fuel, .execute s, m⟩ => momentsExecute fuel s m

/-- The moments of a point lie between its beginning and its end. -/
theorem Point.moments_eq (p : Point) : ∃ inner, p.moments = p.during inner := by
  obtain ⟨fuel, task, m⟩ := p
  cases task with
  | evaluate e => cases fuel <;> exact ⟨_, rfl⟩
  | execute s => cases fuel <;> exact ⟨_, rfl⟩

/-- The end of a point is one of its moments. -/
theorem Point.ends_mem_moments (p : Point) : .ends p ∈ p.moments := by
  obtain ⟨inner, hp⟩ := p.moments_eq
  rw [hp]
  exact List.mem_append_right _ (.head _)

/-! ### The tasks that are begun -/

/-- The points that are begun in the course of some moments. -/
def begunIn (moments : List Moment) : List Point := moments.filterMap Moment.begun?

/-- The points that are begun are those whose beginning is among the moments. -/
theorem mem_begunIn {moments : List Moment} {p : Point} :
    p ∈ begunIn moments ↔ .begins p ∈ moments := by
  unfold begunIn
  rw [List.mem_filterMap]
  constructor
  · rintro ⟨x, hx, hbegun⟩
    cases x with
    | begins q =>
      cases hbegun
      exact hx
    | ends q => cases hbegun
  · exact fun hp => ⟨_, hp, rfl⟩

/-- What is begun in two stretches is begun in one and then in the other. -/
theorem begunIn_append (earlier later : List Moment) :
    begunIn (earlier ++ later) = begunIn earlier ++ begunIn later :=
  List.filterMap_append

/-- A point is begun before what happens during it. -/
theorem Point.begunIn_during (p : Point) (inner : List Moment) :
    begunIn (p.during inner) = p :: begunIn inner := by
  have hlast : begunIn [.ends p] = [] := rfl
  rw [Point.during, begunIn_append, hlast, List.append_nil]
  rfl

/-- What is begun after a step is what is visited after it. -/
theorem begunIn_after {result : EStateM.Result Halt Machine α}
    {next : α → Machine → List Moment} {visited : α → Machine → List Point}
    (h : ∀ a m, begunIn (next a m) = visited a m) :
    begunIn (momentsAfter result next) = afterOk result visited := by
  cases result with
  | ok a m => exact h a m
  | error halt m => rfl

section Lists

variable {evaluate : Expr → Eval Value} {execute : Stmt → Eval Flow}
  {evaluated : Expr → Machine → List Moment} {executed : Stmt → Machine → List Moment}
  {visited : Expr → Machine → List Point} {visited' : Stmt → Machine → List Point}

/-- What is begun by arguments is what they visit. -/
theorem begunIn_each (h : ∀ e m, begunIn (evaluated e m) = visited e m) (es : List Expr)
    (m : Machine) :
    begunIn (momentsEach evaluate evaluated es m) = visitsEach evaluate visited es m := by
  induction es generalizing m with
  | nil => rfl
  | cons e rest ih =>
    rw [momentsEach, begunIn_append, h, begunIn_after fun _ => ih]
    rfl

/-- What is begun by statements is what they visit. -/
theorem begunIn_all (h : ∀ s m, begunIn (executed s m) = visited' s m) (ss : List Stmt)
    (m : Machine) :
    begunIn (momentsAll execute executed ss m) = visitsAll execute visited' ss m := by
  induction ss generalizing m with
  | nil => rfl
  | cons s rest ih =>
    rw [momentsAll, begunIn_append, h, visitsAll]
    congr 1
    refine begunIn_after fun flow m' => ?_
    cases flow with
    | normal => exact ih m'
    | returned v => rfl

/-- What is begun by an expression that may be absent is what it visits. -/
theorem begunIn_option (h : ∀ e m, begunIn (evaluated e m) = visited e m) (e : Option Expr)
    (m : Machine) : begunIn (momentsOption evaluated e m) = visitsOption visited e m := by
  cases e with
  | none => rfl
  | some e => exact h e m

/-- What is begun by a call is what the call visits. -/
theorem begunIn_call (h : ∀ s m, begunIn (executed s m) = visited' s m) (f : Value)
    (vs : List Value) (m : Machine) :
    begunIn (momentsCall execute executed f vs m) = visitsCall execute visited' f vs m := by
  unfold momentsCall visitsCall
  cases f.callable? with
  | none => rfl
  | some callable =>
    dsimp only
    split_ifs
    · rfl
    · rfl
    · cases callable.start? { m with calls := m.calls + 1 } with
      | none => rfl
      | some started => exact begunIn_all h _ _

/-- What is begun by a loop is what its rounds visit. -/
theorem begunIn_while {condition : Eval Value} {body : Eval Flow}
    {tested repeated : Machine → List Moment} {visitsTested visitsRepeated : Machine → List Point}
    (ht : ∀ m, begunIn (tested m) = visitsTested m)
    (hr : ∀ m, begunIn (repeated m) = visitsRepeated m) (n : Nat) (m : Machine) :
    begunIn (momentsWhile condition body tested repeated n m) =
      visitsWhile condition body visitsTested visitsRepeated n m := by
  induction n generalizing m with
  | zero => rfl
  | succ n ih =>
    rw [momentsWhile, begunIn_append, ht, visitsWhile]
    congr 1
    refine begunIn_after fun v m₁ => ?_
    split
    · rw [begunIn_append, hr]
      congr 1
      refine begunIn_after fun flow m₂ => ?_
      cases flow with
      | normal => exact ih m₂
      | returned v => rfl
    · rfl

end Lists

/-- What is begun in the course of a task is what the task visits. -/
theorem begunIn_task (fuel : Nat) :
    (∀ e m, begunIn (momentsEvaluate fuel e m) = visitsEvaluate fuel e m) ∧
      ∀ s m, begunIn (momentsExecute fuel s m) = visitsExecute fuel s m := by
  induction fuel with
  | zero => exact ⟨fun _ _ => rfl, fun _ _ => rfl⟩
  | succ fuel ih =>
    obtain ⟨he, hs⟩ := ih
    constructor
    · intro e m
      refine (Point.begunIn_during ⟨fuel + 1, .evaluate e, m⟩ _).trans (congrArg _ ?_)
      cases e with
      | group inner => exact he inner m
      | unary op line operand => exact he operand m
      | binary op line left right =>
        rw [begunIn_append, he, begunIn_after fun _ => he right]
      | logical op line left right =>
        rw [begunIn_append, he]
        congr 1
        refine begunIn_after fun v m' => ?_
        split
        · rfl
        · exact he right m'
      | assign ref value => exact he value m
      | call callee arguments line =>
        rw [begunIn_append, he]
        congr 1
        refine begunIn_after fun f m₁ => ?_
        rw [begunIn_append, begunIn_each he]
        congr 1
        exact begunIn_after fun vs m₂ => begunIn_call hs f vs m₂
      | get object name => exact he object m
      | set object name value =>
        rw [begunIn_append, he]
        congr 1
        refine begunIn_after fun o m' => ?_
        cases o with
        | object id cls => exact he value m'
        | _ => rfl
      | literal | var | this | super => rfl
    · intro s m
      refine (Point.begunIn_during ⟨fuel + 1, .execute s, m⟩ _).trans (congrArg _ ?_)
      cases s with
      | expression e => exact he e m
      | print e => exact he e m
      | varDecl name initializer => exact begunIn_option he initializer m
      | block body => exact begunIn_all hs body _
      | branch condition yes no =>
        rw [begunIn_append, he]
        congr 1
        refine begunIn_after fun v m' => ?_
        split
        · exact hs yes m'
        · cases no with
          | none => rfl
          | some other => exact hs other m'
      | loop condition body => exact begunIn_while (he condition) (hs body) fuel m
      | funDecl f => rfl
      | result line value => exact begunIn_option he value m
      | classDecl name superclass methods =>
        cases superclass with
        | none => rfl
        | some ref => rfl

/-- The points that a point begins are those that it visits. -/
theorem Point.begunIn_moments (p : Point) : begunIn p.moments = p.visits := by
  obtain ⟨fuel, task, m⟩ := p
  cases task with
  | evaluate e => exact (begunIn_task fuel).1 e m
  | execute s => exact (begunIn_task fuel).2 s m

/-! ### Tasks are done in one piece -/

/-- A property of lists of moments that joining lists keeps, and also putting the
moments of a task around those of its parts. -/
structure Closed (Q : List Moment → Prop) : Prop where
  /-- There may be no moments. -/
  nil : Q []
  /-- Moments may be put behind others. -/
  append : ∀ earlier later : List Moment, Q earlier → Q later → Q (earlier ++ later)
  /-- The moments of a task may be put around those of its parts. -/
  during : ∀ (p : Point) (inner : List Moment),
    p.moments = p.during inner → Q inner → Q (p.during inner)

namespace Closed

variable {Q : List Moment → Prop} {evaluate : Expr → Eval Value} {execute : Stmt → Eval Flow}
  {evaluated : Expr → Machine → List Moment} {executed : Stmt → Machine → List Moment}

/-- A closed property passes on to what happens after a step. -/
theorem after (hQ : Closed Q) {result : EStateM.Result Halt Machine α}
    {next : α → Machine → List Moment} (h : ∀ a m, Q (next a m)) :
    Q (momentsAfter result next) := by
  cases result with
  | ok a m => exact h a m
  | error halt m => exact hQ.nil

/-- A closed property passes on to arguments. -/
theorem each (hQ : Closed Q) (h : ∀ e m, Q (evaluated e m)) (es : List Expr) (m : Machine) :
    Q (momentsEach evaluate evaluated es m) := by
  induction es generalizing m with
  | nil => exact hQ.nil
  | cons e rest ih => exact hQ.append _ _ (h e m) (hQ.after fun _ => ih)

/-- A closed property passes on to statements one after another. -/
theorem all (hQ : Closed Q) (h : ∀ s m, Q (executed s m)) (ss : List Stmt) (m : Machine) :
    Q (momentsAll execute executed ss m) := by
  induction ss generalizing m with
  | nil => exact hQ.nil
  | cons s rest ih =>
    refine hQ.append _ _ (h s m) (hQ.after fun flow m' => ?_)
    cases flow with
    | normal => exact ih m'
    | returned v => exact hQ.nil

/-- A closed property passes on to an expression that may be absent. -/
theorem option (hQ : Closed Q) (h : ∀ e m, Q (evaluated e m)) (e : Option Expr) (m : Machine) :
    Q (momentsOption evaluated e m) := by
  cases e with
  | none => exact hQ.nil
  | some e => exact h e m

/-- A closed property passes on to the body of a call. -/
theorem call (hQ : Closed Q) (h : ∀ s m, Q (executed s m)) (f : Value) (vs : List Value)
    (m : Machine) : Q (momentsCall execute executed f vs m) := by
  unfold momentsCall
  cases f.callable? with
  | none => exact hQ.nil
  | some callable =>
    dsimp only
    split_ifs
    · exact hQ.nil
    · exact hQ.nil
    · cases callable.start? { m with calls := m.calls + 1 } with
      | none => exact hQ.nil
      | some started => exact hQ.all h _ _

/-- A closed property passes on to all rounds of a loop. -/
theorem repeated (hQ : Closed Q) {condition : Eval Value} {body : Eval Flow}
    {tested repeated : Machine → List Moment} (ht : ∀ m, Q (tested m))
    (hr : ∀ m, Q (repeated m)) (n : Nat) (m : Machine) :
    Q (momentsWhile condition body tested repeated n m) := by
  induction n generalizing m with
  | zero => exact hQ.nil
  | succ n ih =>
    refine hQ.append _ _ (ht m) (hQ.after fun v m₁ => ?_)
    split
    · refine hQ.append _ _ (hr m₁) (hQ.after fun flow m₂ => ?_)
      cases flow with
      | normal => exact ih m₂
      | returned v => exact hQ.nil
    · exact hQ.nil

/-- It holds of the moments of every task, by induction on the bound of its run. -/
theorem task (hQ : Closed Q) (fuel : Nat) :
    (∀ e m, Q (momentsEvaluate fuel e m)) ∧ ∀ s m, Q (momentsExecute fuel s m) := by
  induction fuel with
  | zero => exact ⟨fun e m => hQ.during ⟨0, .evaluate e, m⟩ [] rfl hQ.nil,
      fun s m => hQ.during ⟨0, .execute s, m⟩ [] rfl hQ.nil⟩
  | succ fuel ih =>
    obtain ⟨he, hs⟩ := ih
    constructor
    · intro e m
      refine hQ.during ⟨fuel + 1, .evaluate e, m⟩ _ rfl ?_
      cases e with
      | group inner => exact he inner m
      | unary op line operand => exact he operand m
      | binary op line left right => exact hQ.append _ _ (he left m) (hQ.after fun _ => he right)
      | logical op line left right =>
        refine hQ.append _ _ (he left m) (hQ.after fun v m' => ?_)
        split
        · exact hQ.nil
        · exact he right m'
      | assign ref value => exact he value m
      | call callee arguments line =>
        refine hQ.append _ _ (he callee m) (hQ.after fun f m₁ => ?_)
        exact hQ.append _ _ (hQ.each he arguments m₁) (hQ.after fun vs m₂ => hQ.call hs f vs m₂)
      | get object name => exact he object m
      | set object name value =>
        refine hQ.append _ _ (he object m) (hQ.after fun o m' => ?_)
        cases o with
        | object id cls => exact he value m'
        | _ => exact hQ.nil
      | literal | var | this | super => exact hQ.nil
    · intro s m
      refine hQ.during ⟨fuel + 1, .execute s, m⟩ _ rfl ?_
      cases s with
      | expression e => exact he e m
      | print e => exact he e m
      | varDecl name initializer => exact hQ.option he initializer m
      | block body => exact hQ.all hs body _
      | branch condition yes no =>
        refine hQ.append _ _ (he condition m) (hQ.after fun v m' => ?_)
        split
        · exact hs yes m'
        · cases no with
          | none => exact hQ.nil
          | some other => exact hs other m'
      | loop condition body => exact hQ.repeated (he condition) (hs body) fuel m
      | funDecl f => exact hQ.nil
      | result line value => exact hQ.option he value m
      | classDecl name superclass methods =>
        cases superclass with
        | none => exact hQ.nil
        | some ref => exact hQ.during _ [] (by cases fuel <;> rfl) hQ.nil

end Closed

/-- Every task that is begun is done in one piece. -/
def Whole (moments : List Moment) : Prop :=
  ∀ (before : List Moment) (p : Point) (after : List Moment),
    moments = before ++ .begins p :: after → ∃ later, moments = before ++ p.moments ++ later

/-- Tasks that are done in one piece are done so one after the other. -/
theorem Whole.append {earlier later : List Moment} (h : Whole earlier) (h' : Whole later) :
    Whole (earlier ++ later) := by
  intro before p after hsplit
  rcases List.append_eq_append_iff.1 hsplit with ⟨middle, rfl, hlater⟩ | ⟨middle, rfl, hafter⟩
  · obtain ⟨rest, hrest⟩ := h' middle p after hlater
    exact ⟨rest, by rw [hrest, List.append_assoc, List.append_assoc, List.append_assoc]⟩
  · cases middle with
    | nil =>
      obtain ⟨rest, hrest⟩ := h' [] p after hafter.symm
      refine ⟨rest, ?_⟩
      rw [hrest, List.append_nil, List.nil_append, List.append_assoc]
    | cons x middle =>
      obtain ⟨rfl, rfl⟩ := List.cons.inj hafter
      obtain ⟨rest, hrest⟩ := h before p middle rfl
      exact ⟨rest ++ later, by rw [hrest, List.append_assoc]⟩

/-- A task that is begun before another one and does not come to it is over by then. -/
theorem Whole.over {before after : List Moment} {p q : Point}
    (h : Whole (before ++ .begins q :: after)) (hp : .begins p ∈ before)
    (hq : .begins q ∉ p.moments) : ∃ first between, before = first ++ p.moments ++ between := by
  obtain ⟨first, rest, rfl⟩ := List.append_of_mem hp
  obtain ⟨later, hlater⟩ := h first p (rest ++ .begins q :: after) (by simp)
  rw [List.append_assoc, List.append_assoc, List.append_cancel_left_eq] at hlater
  rcases List.append_eq_append_iff.1 hlater with ⟨others, hmoments, hothers⟩ | ⟨between, hrest, -⟩
  · cases others with
    | nil =>
      rw [List.append_nil] at hmoments
      exact ⟨first, [], by rw [hmoments, List.append_nil]⟩
    | cons x others =>
      obtain ⟨rfl, -⟩ := List.cons.inj hothers
      refine absurd ?_ hq
      rw [hmoments]
      exact List.mem_append_right _ (.head _)
  · exact ⟨first, between, by rw [hrest, List.append_assoc]⟩

/-- That all tasks are done in one piece is a closed property. -/
theorem closed_whole : Closed Whole where
  nil := fun before p after hsplit => by
    cases before <;> cases hsplit
  append := fun _ _ => Whole.append
  during := by
    intro p inner hp hinner before q after hsplit
    have hends : Whole [.ends p] := by
      intro before q after hsplit
      rcases before with _ | ⟨x, _ | ⟨y, before⟩⟩ <;> cases hsplit
    cases before with
    | nil =>
      cases hsplit
      exact ⟨[], by rw [hp, List.append_nil, List.nil_append]⟩
    | cons x before =>
      obtain ⟨rfl, hrest⟩ := List.cons.inj hsplit
      obtain ⟨later, hlater⟩ := hinner.append hends before q after hrest
      exact ⟨later, congrArg (List.cons _) hlater⟩

/-- Every task of a run is done in one piece. -/
theorem Point.whole_moments (p : Point) : Whole p.moments := by
  obtain ⟨fuel, task, m⟩ := p
  cases task with
  | evaluate e => exact (closed_whole.task fuel).1 e m
  | execute s => exact (closed_whole.task fuel).2 s m

/-- A point inside of another is begun in the course of it. -/
theorem Inside.begins_mem {n : Nat} {p q : Point} (h : Inside n p q) : .begins q ∈ p.moments := by
  rw [← mem_begunIn, p.begunIn_moments]
  exact Point.mem_visits_iff.2 ⟨n, h⟩

/-- It is also done then. -/
theorem Inside.moments {n : Nat} {p q : Point} (h : Inside n p q) :
    ∃ before later, p.moments = before ++ q.moments ++ later := by
  obtain ⟨before, after, hsplit⟩ := List.append_of_mem h.begins_mem
  obtain ⟨later, hlater⟩ := p.whole_moments before q after hsplit
  exact ⟨before, later, hlater⟩

end Lox
