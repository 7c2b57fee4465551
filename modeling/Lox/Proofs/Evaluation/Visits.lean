import Lox.Proofs.Evaluation.Points

/-!
# The points of a run in order

The points that a task comes to, listed in the order in which they are begun: the
task itself, and then, for every part of it that is entered, the points of that part.
A part is entered on the machine that the parts before it left, and only if all of
them yielded something. A point is in the list exactly if it is inside of the task.
-/

namespace Lox

variable {α β : Type}

/-- What is visited after a step that yielded something; after one that did not,
nothing is. -/
def afterOk (result : EStateM.Result Halt Machine α) (next : α → Machine → List Point) :
    List Point :=
  match result with
  | .ok a m => next a m
  | .error _ _ => []

section Lists

variable (evaluate : Expr → Eval Value) (execute : Stmt → Eval Flow)
  (evaluated : Expr → Machine → List Point) (executed : Stmt → Machine → List Point)

/-- The points of expressions that are evaluated from left to right. -/
def visitsEach : List Expr → Machine → List Point
  | [], _ => []
  | e :: rest, m => evaluated e m ++ afterOk (evaluate e m) fun _ => visitsEach rest

/-- The points of statements, until one ends the call in progress. -/
def visitsAll : List Stmt → Machine → List Point
  | [], _ => []
  | s :: rest, m =>
    executed s m ++ afterOk (execute s m) fun flow m' =>
      match flow with
      | .normal => visitsAll rest m'
      | .returned _ => []

/-- The points of an expression that may be missing. -/
def visitsOption : Option Expr → Machine → List Point
  | none, _ => []
  | some e, m => evaluated e m

/-- The points of the body of a function that is run, if one is. -/
def visitsBody (start : Option (Closure × Machine)) (arguments : List Value) : List Point :=
  match start with
  | none => []
  | some (c, m) => visitsAll execute executed c.decl.body (c.inside arguments m)

/-- The points of a call, if it is made. -/
def visitsCall (callee : Value) (arguments : List Value) (m : Machine) : List Point :=
  match callee.callable? with
  | none => []
  | some callable =>
    if arguments.length ≠ callable.arity then []
    else if Machine.maxCalls ≤ m.calls then []
    else visitsBody execute executed (callable.start? { m with calls := m.calls + 1 }) arguments

end Lists

/-- The points of a loop that repeats at most a number of times. -/
def visitsWhile (condition : Eval Value) (body : Eval Flow)
    (tested repeated : Machine → List Point) : Nat → Machine → List Point
  | 0, _ => []
  | n + 1, m =>
    tested m ++ afterOk (condition m) fun v m₁ =>
      if v.isTruthy then
        repeated m₁ ++ afterOk (body m₁) fun flow m₂ =>
          match flow with
          | .normal => visitsWhile condition body tested repeated n m₂
          | .returned _ => []
      else []

mutual

/-- The points of an expression. -/
def visitsEvaluate : Nat → Expr → Machine → List Point
  | 0, e, m => [⟨0, .evaluate e, m⟩]
  | fuel + 1, e, m =>
    ⟨fuel + 1, .evaluate e, m⟩ ::
      match e with
      | .literal _ => []
      | .group inner => visitsEvaluate fuel inner m
      | .unary _ _ operand => visitsEvaluate fuel operand m
      | .binary _ _ left right =>
        visitsEvaluate fuel left m ++
          afterOk (Eval.evaluate fuel left m) fun _ => visitsEvaluate fuel right
      | .logical op _ left right =>
        visitsEvaluate fuel left m ++
          afterOk (Eval.evaluate fuel left m) fun v m' =>
            if op.isDecided v then [] else visitsEvaluate fuel right m'
      | .var _ => []
      | .assign _ value => visitsEvaluate fuel value m
      | .call callee arguments _ =>
        visitsEvaluate fuel callee m ++
          afterOk (Eval.evaluate fuel callee m) fun f m₁ =>
            visitsEach (Eval.evaluate fuel) (visitsEvaluate fuel) arguments m₁ ++
              afterOk (Eval.evaluateAll (Eval.evaluate fuel) arguments m₁) fun vs m₂ =>
                visitsCall (Eval.execute fuel) (visitsExecute fuel) f vs m₂
      | .get object _ => visitsEvaluate fuel object m
      | .set object _ value =>
        visitsEvaluate fuel object m ++
          afterOk (Eval.evaluate fuel object m) fun o m' =>
            match o with
            | .object _ _ => visitsEvaluate fuel value m'
            | _ => []
      | .this _ _ => []
      | .super _ _ _ => []

/-- The points of a statement. -/
def visitsExecute : Nat → Stmt → Machine → List Point
  | 0, s, m => [⟨0, .execute s, m⟩]
  | fuel + 1, s, m =>
    ⟨fuel + 1, .execute s, m⟩ ::
      match s with
      | .expression e => visitsEvaluate fuel e m
      | .print e => visitsEvaluate fuel e m
      | .varDecl _ initializer => visitsOption (visitsEvaluate fuel) initializer m
      | .block body =>
        visitsAll (Eval.execute fuel) (visitsExecute fuel) body (m.inside m.env [])
      | .branch condition yes no =>
        visitsEvaluate fuel condition m ++
          afterOk (Eval.evaluate fuel condition m) fun v m' =>
            if v.isTruthy then visitsExecute fuel yes m'
            else
              match no with
              | none => []
              | some other => visitsExecute fuel other m'
      | .loop condition body =>
        visitsWhile (Eval.evaluate fuel condition) (Eval.execute fuel body)
          (visitsEvaluate fuel condition) (visitsExecute fuel body) fuel m
      | .funDecl _ => []
      | .result _ value => visitsOption (visitsEvaluate fuel) value m
      | .classDecl name superclass _ =>
        match superclass with
        | none => []
        | some ref =>
          [⟨fuel, .evaluate (.var ref),
            { m with store := m.store.define m.env name.text .nil }⟩]

end

/-- The points that a task comes to, in the order in which they are begun. -/
def Point.visits : Point → List Point
  | ⟨fuel, .evaluate e, m⟩ => visitsEvaluate fuel e m
  | ⟨fuel, .execute s, m⟩ => visitsExecute fuel s m

/-! ### What is in the list -/

/-- What is visited after a step is visited if the step yields something. -/
theorem mem_afterOk {result : EStateM.Result Halt Machine α} {next : α → Machine → List Point}
    {q : Point} : q ∈ afterOk result next ↔ ∃ a m, result = .ok a m ∧ q ∈ next a m := by
  cases result with
  | ok a m =>
    refine ⟨fun h => ⟨a, m, rfl, h⟩, ?_⟩
    rintro ⟨_, _, ⟨⟩, h⟩
    exact h
  | error e m => exact ⟨nofun, fun ⟨_, _, h, _⟩ => nomatch h⟩

section Lists

variable {evaluate : Expr → Eval Value} {execute : Stmt → Eval Flow}
  {evaluated : Expr → Machine → List Point} {executed : Stmt → Machine → List Point} {q : Point}

/-- An argument is come to once those before it have values. -/
theorem mem_visitsEach {es : List Expr} {m : Machine} :
    q ∈ visitsEach evaluate evaluated es m ↔ ∃ before e later vs m',
      es = before ++ e :: later ∧ Eval.evaluateAll evaluate before m = .ok vs m' ∧
        q ∈ evaluated e m' := by
  constructor
  · intro h
    induction es generalizing m with
    | nil => cases h
    | cons e rest ih =>
      rcases List.mem_append.1 h with h | h
      · exact ⟨[], e, rest, [], m, rfl, rfl, h⟩
      · obtain ⟨v, m₁, hv, h⟩ := mem_afterOk.1 h
        obtain ⟨before, e', later, vs, m', rfl, hvs, h⟩ := ih h
        refine ⟨e :: before, e', later, v :: vs, m', rfl, ?_, h⟩
        rw [Eval.evaluateAll, bind_of_ok hv, bind_of_ok hvs]
        rfl
  · rintro ⟨before, e, later, vs, m', rfl, hvs, h⟩
    induction before generalizing m vs with
    | nil =>
      cases hvs
      exact List.mem_append_left _ h
    | cons e' before ih =>
      obtain ⟨v, m₁, hv, hrest⟩ := bind_eq_ok hvs
      obtain ⟨vs', m₂, hvs', hend⟩ := bind_eq_ok hrest
      cases hend
      exact List.mem_append_right _ (mem_afterOk.2 ⟨v, m₁, hv, ih _ hvs'⟩)

/-- A statement is come to once those before it are over. -/
theorem mem_visitsAll {ss : List Stmt} {m : Machine} :
    q ∈ visitsAll execute executed ss m ↔ ∃ before s later m',
      ss = before ++ s :: later ∧ Eval.executeAll execute before m = .ok .normal m' ∧
        q ∈ executed s m' := by
  constructor
  · intro h
    induction ss generalizing m with
    | nil => cases h
    | cons s rest ih =>
      rcases List.mem_append.1 h with h | h
      · exact ⟨[], s, rest, m, rfl, rfl, h⟩
      · obtain ⟨flow, m₁, hs, h⟩ := mem_afterOk.1 h
        cases flow with
        | returned v => cases h
        | normal =>
          obtain ⟨before, s', later, m', rfl, hbefore, h⟩ := ih h
          refine ⟨s :: before, s', later, m', rfl, ?_, h⟩
          rw [Eval.executeAll, bind_of_ok hs]
          exact hbefore
  · rintro ⟨before, s, later, m', rfl, hbefore, h⟩
    induction before generalizing m with
    | nil =>
      cases hbefore
      exact List.mem_append_left _ h
    | cons s' before ih =>
      obtain ⟨flow, m₁, hs, hrest⟩ := bind_eq_ok hbefore
      cases flow with
      | returned v => cases hrest
      | normal => exact List.mem_append_right _ (mem_afterOk.2 ⟨.normal, m₁, hs, ih hrest⟩)

/-- A body is visited if a function is started. -/
theorem mem_visitsBody {start : Option (Closure × Machine)} {vs : List Value} :
    q ∈ visitsBody execute executed start vs ↔ ∃ c m, start = some (c, m) ∧
      q ∈ visitsAll execute executed c.decl.body (c.inside vs m) := by
  cases start with
  | none => exact ⟨nofun, fun ⟨_, _, h, _⟩ => nomatch h⟩
  | some started =>
    refine ⟨fun h => ⟨started.1, started.2, rfl, h⟩, ?_⟩
    rintro ⟨_, _, ⟨⟩, h⟩
    exact h

/-- A call visits the body if it passes all checks: that there is something to call, with
so many arguments, and not too many calls in progress. -/
theorem mem_visitsCall {f : Value} {vs : List Value} {m : Machine} :
    q ∈ visitsCall execute executed f vs m ↔ ∃ callable c m',
      f.callable? = some callable ∧ vs.length = callable.arity ∧ m.calls < Machine.maxCalls ∧
        callable.start? { m with calls := m.calls + 1 } = some (c, m') ∧
          q ∈ visitsAll execute executed c.decl.body (c.inside vs m') := by
  unfold visitsCall
  constructor
  · intro h
    split at h
    · cases h
    · rename_i callable hcallable
      split at h
      · cases h
      · rename_i harity
        split at h
        · cases h
        · rename_i hcalls
          obtain ⟨c, m', hstart, h⟩ := mem_visitsBody.1 h
          exact ⟨callable, c, m', hcallable, not_not.1 harity, Nat.lt_of_not_le hcalls, hstart, h⟩
  · rintro ⟨callable, c, m', hcallable, harity, hcalls, hstart, h⟩
    rw [hcallable]
    dsimp only
    rw [if_neg (not_not.2 harity), if_neg (Nat.not_le_of_lt hcalls)]
    exact mem_visitsBody.2 ⟨c, m', hstart, h⟩

end Lists

/-- A round before others. -/
theorem Rounds.first {fuel n : Nat} {e : Expr} {s : Stmt} {m m₁ m₂ m' : Machine} {v : Value}
    (hc : Eval.evaluate fuel e m = .ok v m₁) (hv : v.isTruthy = true)
    (hb : Eval.execute fuel s m₁ = .ok .normal m₂) (h : Rounds fuel e s n m₂ m') :
    Rounds fuel e s (n + 1) m m' := by
  induction h with
  | none => exact .more .none hc hv hb
  | more _ hc' hv' hb' ih => exact .more (ih hb) hc' hv' hb'

section Loops

variable {fuel n : Nat} {e : Expr} {s : Stmt} {m m' : Machine} {q : Point}

/-- The points of a loop that is visited after some rounds. -/
theorem Rounds.visitsWhile_subset {k : Nat} (h : Rounds fuel e s k m m')
    (hq : q ∈ visitsWhile (Eval.evaluate fuel e) (Eval.execute fuel s) (visitsEvaluate fuel e)
      (visitsExecute fuel s) n m') :
    q ∈ visitsWhile (Eval.evaluate fuel e) (Eval.execute fuel s) (visitsEvaluate fuel e)
      (visitsExecute fuel s) (n + k) m := by
  induction h generalizing n with
  | none => exact hq
  | @more k m m₁ m₂ m₃ v _ hc hv hb ih =>
    rw [← Nat.add_assoc, Nat.add_right_comm]
    refine ih (List.mem_append_right _ (mem_afterOk.2 ⟨v, m₂, hc, ?_⟩))
    rw [if_pos hv]
    exact List.mem_append_right _ (mem_afterOk.2 ⟨.normal, m₃, hb, hq⟩)

/-- A loop comes to the points of its condition, and to those of its body if the
condition holds, after some full rounds. -/
theorem mem_visitsWhile :
    q ∈ visitsWhile (Eval.evaluate fuel e) (Eval.execute fuel s) (visitsEvaluate fuel e)
        (visitsExecute fuel s) n m ↔
      ∃ k m', k < n ∧ Rounds fuel e s k m m' ∧
        (q ∈ visitsEvaluate fuel e m' ∨ ∃ v m₁, Eval.evaluate fuel e m' = .ok v m₁ ∧
          v.isTruthy = true ∧ q ∈ visitsExecute fuel s m₁) := by
  constructor
  · intro h
    induction n generalizing m with
    | zero => cases h
    | succ n ih =>
      rcases List.mem_append.1 h with h | h
      · exact ⟨0, m, Nat.succ_pos n, .none, .inl h⟩
      obtain ⟨v, m₁, hc, h⟩ := mem_afterOk.1 h
      split at h
      · rename_i hv
        rcases List.mem_append.1 h with h | h
        · exact ⟨0, m, Nat.succ_pos n, .none, .inr ⟨v, m₁, hc, hv, h⟩⟩
        · obtain ⟨flow, m₂, hb, h⟩ := mem_afterOk.1 h
          cases flow with
          | returned w => cases h
          | normal =>
            obtain ⟨k, m', hk, hrounds, h⟩ := ih h
            exact ⟨k + 1, m', Nat.succ_lt_succ hk, hrounds.first hc hv hb, h⟩
      · cases h
  · rintro ⟨k, m', hk, hrounds, h⟩
    obtain ⟨d, rfl⟩ : ∃ d, n = d + 1 + k := ⟨n - (k + 1), by omega⟩
    refine hrounds.visitsWhile_subset ?_
    rcases h with h | ⟨v, m₁, hc, hv, h⟩
    · exact List.mem_append_left _ h
    · refine List.mem_append_right _ (mem_afterOk.2 ⟨v, m₁, hc, ?_⟩)
      rw [if_pos hv]
      exact List.mem_append_left _ h

end Loops

/-! ### Points inside of a task -/

/-- A task is visited first. -/
theorem Point.visits_eq (p : Point) : p.visits = p :: p.visits.tail := by
  obtain ⟨fuel, task, m⟩ := p
  cases fuel with
  | zero => cases task <;> rfl
  | succ fuel => cases task <;> rfl

/-- A point visits itself first. -/
theorem Point.mem_visits_self (p : Point) : p ∈ p.visits := by
  rw [p.visits_eq]
  exact List.mem_cons_self

/-- A task visits what is visited by what it enters. -/
theorem Enters.visits_subset {p q r : Point} {k : Nat} (h : Enters p k q) (hr : r ∈ q.visits) :
    r ∈ p.visits := by
  have hafter : ∀ {α : Type} {earlier : List Point} {result : EStateM.Result Halt Machine α}
      {next : α → Machine → List Point} {a : α} {m : Machine}, result = .ok a m → r ∈ next a m →
      r ∈ earlier ++ afterOk result next :=
    fun h hr => List.mem_append_right _ (mem_afterOk.2 ⟨_, _, h, hr⟩)
  cases h with
  | right ha => exact .tail _ (hafter ha hr)
  | second ha hopen =>
    refine .tail _ (hafter ha ?_)
    rw [hopen]
    exact hr
  | argument hf hvs =>
    refine .tail _ (hafter hf (List.mem_append_left _ ?_))
    exact mem_visitsEach.2 ⟨_, _, _, _, _, rfl, hvs, hr⟩
  | body hf hvs hcallable harity hcalls hstart hbody hbefore =>
    have hstatement := mem_visitsAll.2 ⟨_, _, _, _, hbody, hbefore, hr⟩
    refine .tail _ (hafter hf (hafter hvs ?_))
    exact mem_visitsCall.2 ⟨_, _, _, hcallable, harity, hcalls, hstart, hstatement⟩
  | field ho => exact .tail _ (hafter ho hr)
  | block hbefore => exact .tail _ (mem_visitsAll.2 ⟨_, _, _, _, rfl, hbefore, hr⟩)
  | yes he hv =>
    refine .tail _ (hafter he ?_)
    rw [if_pos hv]
    exact hr
  | no he hv =>
    refine .tail _ (hafter he ?_)
    rw [hv]
    exact hr
  | again hrounds hn => exact .tail _ (mem_visitsWhile.2 ⟨_, _, hn, hrounds, .inl hr⟩)
  | round hrounds hn he hv =>
    exact .tail _ (mem_visitsWhile.2 ⟨_, _, hn, hrounds, .inr ⟨_, _, he, hv, hr⟩⟩)
  | @superclass fuel => cases fuel <;> exact .tail _ hr
  | left | first | callee | target | condition => exact .tail _ (List.mem_append_left _ hr)
  | _ => exact .tail _ hr

/-- What is visited is the task itself or belongs to something that it enters. -/
theorem Point.mem_visits_cases {p q : Point} (h : q ∈ p.visits) :
    q = p ∨ ∃ k c, Enters p k c ∧ c.fuel < p.fuel ∧ q ∈ c.visits := by
  obtain ⟨fuel, task, m⟩ := p
  cases fuel with
  | zero =>
    cases task with
    | evaluate e => exact .inl (List.mem_singleton.1 h)
    | execute s => exact .inl (List.mem_singleton.1 h)
  | succ fuel =>
    have hless := Nat.lt_succ_self fuel
    cases task with
    | evaluate e =>
      rcases List.mem_cons.1 h with h | h
      · exact .inl h
      refine .inr ?_
      cases e with
      | literal l => cases h
      | group inner => exact ⟨0, _, .group, hless, h⟩
      | unary op line operand => exact ⟨0, _, .operand, hless, h⟩
      | binary op line left right =>
        rcases List.mem_append.1 h with h | h
        · exact ⟨0, _, .left, hless, h⟩
        · obtain ⟨v, m', hv, h⟩ := mem_afterOk.1 h
          exact ⟨0, _, .right hv, hless, h⟩
      | logical op line left right =>
        rcases List.mem_append.1 h with h | h
        · exact ⟨0, _, .first, hless, h⟩
        · obtain ⟨v, m', hv, h⟩ := mem_afterOk.1 h
          split at h
          · cases h
          · rename_i hopen
            exact ⟨0, _, .second hv (Bool.eq_false_iff.2 hopen), hless, h⟩
      | var ref => cases h
      | assign ref value => exact ⟨0, _, .assigned, hless, h⟩
      | call callee arguments line =>
        rcases List.mem_append.1 h with h | h
        · exact ⟨0, _, .callee, hless, h⟩
        obtain ⟨f, m₁, hf, h⟩ := mem_afterOk.1 h
        rcases List.mem_append.1 h with h | h
        · obtain ⟨before, e, later, vs, m₂, rfl, hvs, h⟩ := mem_visitsEach.1 h
          exact ⟨0, _, .argument hf hvs, hless, h⟩
        · obtain ⟨vs, m₂, hvs, h⟩ := mem_afterOk.1 h
          obtain ⟨callable, c, m₃, hcallable, harity, hcalls, hstart, h⟩ := mem_visitsCall.1 h
          obtain ⟨before, s, later, m₄, hbody, hbefore, h⟩ := mem_visitsAll.1 h
          exact ⟨1, _, .body hf hvs hcallable harity hcalls hstart hbody hbefore, hless, h⟩
      | get object name => exact ⟨0, _, .object, hless, h⟩
      | set object name value =>
        rcases List.mem_append.1 h with h | h
        · exact ⟨0, _, .target, hless, h⟩
        · obtain ⟨o, m', ho, h⟩ := mem_afterOk.1 h
          cases o with
          | object id cls => exact ⟨0, _, .field ho, hless, h⟩
          | _ => cases h
      | this id line => cases h
      | super id line method => cases h
    | execute s =>
      rcases List.mem_cons.1 h with h | h
      · exact .inl h
      refine .inr ?_
      cases s with
      | expression e => exact ⟨0, _, .expression, hless, h⟩
      | print e => exact ⟨0, _, .print, hless, h⟩
      | varDecl name initializer =>
        cases initializer with
        | none => cases h
        | some e => exact ⟨0, _, .initializer, hless, h⟩
      | block body =>
        obtain ⟨before, s, later, m', rfl, hbefore, h⟩ := mem_visitsAll.1 h
        exact ⟨0, _, .block hbefore, hless, h⟩
      | branch condition yes no =>
        rcases List.mem_append.1 h with h | h
        · exact ⟨0, _, .condition, hless, h⟩
        · obtain ⟨v, m', hv, h⟩ := mem_afterOk.1 h
          split at h
          · rename_i hyes
            exact ⟨0, _, .yes hv hyes, hless, h⟩
          · rename_i hno
            cases no with
            | none => cases h
            | some other => exact ⟨0, _, .no hv (Bool.eq_false_iff.2 hno), hless, h⟩
      | loop condition body =>
        obtain ⟨k, m', hk, hrounds, h | ⟨v, m₁, hv, hyes, h⟩⟩ := mem_visitsWhile.1 h
        · exact ⟨0, _, .again hrounds hk, hless, h⟩
        · exact ⟨0, _, .round hrounds hk hv hyes, hless, h⟩
      | funDecl function => cases h
      | result line value =>
        cases value with
        | none => cases h
        | some e => exact ⟨0, _, .result, hless, h⟩
      | classDecl name superclass methods =>
        cases superclass with
        | none => cases h
        | some ref =>
          rw [List.mem_singleton.1 h]
          exact ⟨0, _, .superclass, hless, Point.mem_visits_self _⟩

/-- A point inside of something that a task enters. -/
theorem Inside.enter {p q r : Point} {n k : Nat} (hq : Enters p k q) (h : Inside n q r) :
    Inside (n + k) p r := by
  induction h with
  | here =>
    rw [Nat.zero_add, ← Nat.zero_add k]
    exact .deeper .here hq
  | deeper _ hr ih =>
    rw [Nat.add_right_comm]
    exact .deeper (ih hq) hr

/-- The points that are visited are those inside of the task. -/
theorem Point.mem_visits_iff {p q : Point} : q ∈ p.visits ↔ ∃ n, Inside n p q := by
  constructor
  · intro h
    -- Whatever is entered has a smaller bound.
    induction hfuel : p.fuel using Nat.strongRecOn generalizing p with
    | ind fuel ih =>
      rcases p.mem_visits_cases h with rfl | ⟨k, c, henters, hless, h⟩
      · exact ⟨0, .here⟩
      · obtain ⟨n, hinside⟩ := ih c.fuel (hfuel ▸ hless) h rfl
        exact ⟨n + k, hinside.enter henters⟩
  · rintro ⟨n, h⟩
    have hsubset : ∀ r ∈ q.visits, r ∈ p.visits := by
      induction h with
      | here => exact fun r hr => hr
      | deeper _ henters ih => exact fun r hr => ih r (henters.visits_subset hr)
    exact hsubset q q.mem_visits_self

end Lox
