import Lox.Proofs.Grammar.Soundness
import Lox.Proofs.Loops.Completion

/-!
# The tree of a `for` statement does what its clauses say

The tree of a `for` statement puts a block around the loop where there is a first
clause and one around the body where there is an increment. Without a first
clause there is no block, and the parts of the loop run in the scope around it.
This makes no difference since neither an expression nor a statement that is no
declaration adds a name to its scope.
-/

namespace Lox

open Lexical Loops

/-- The map inside of a scope at a place with the given map. -/
def Locals.inside (locals : Locals) : Locals := some (locals.getD [])

namespace Lexical

variable {locals : Locals}

/-- A scope without names does not change which cell a name has. -/
theorem cell?_inside (text : String) : locals.inside.cell? text = locals.cell? text := by
  cases locals <;> rfl

/-- A variable is read alike inside of a scope without names. -/
theorem readName_inside (name : Name) : readName locals.inside name = readName locals name := by
  unfold readName
  rw [cell?_inside]

/-- A variable is written alike inside of a scope without names. -/
theorem writeName_inside (name : Name) (value : Value Locals) :
    writeName locals.inside name value = writeName locals name value := by
  unfold writeName
  rw [cell?_inside]

/-- A method of the superclass is found alike inside of a scope without names. -/
theorem superMethod_inside (line : Nat) (method : Name) :
    superMethod locals.inside line method = superMethod locals line method := by
  unfold superMethod
  rw [readName_inside, readName_inside]

/-- An expression does not tell a scope without names from the place around it. -/
theorem evaluate_inside (fuel : Nat) (e : Expr) :
    evaluate fuel locals.inside e = evaluate fuel locals e := by
  induction fuel generalizing e with
  | zero => rfl
  | succ fuel ih =>
    have hall : evaluate fuel locals.inside = evaluate fuel locals := funext ih
    cases e <;>
      simp only [evaluate, hall, readName_inside, writeName_inside, superMethod_inside]

/-- Behind two scopes the map is that of the place around both. -/
@[simp] theorem outside_outside (outer inner : Locals) (outcome : Outcome) :
    (outcome.outside inner).outside outer = outcome.outside outer := by
  cases outcome <;> rfl

/-- A loop iterates alike inside of a scope without names, and the map around it is left
behind. -/
theorem repeatWhile_inside {condition : Locals → Lexical (Value Locals)}
    {body : Locals → Lexical Outcome} (hc : condition locals.inside = condition locals)
    (hb : ∀ here : Locals, body here = do return (← body here.inside).outside here) (fuel : Nat) :
    repeatWhile condition body fuel locals =
      (do return (← repeatWhile condition body fuel locals.inside).outside locals) := by
  induction fuel with
  | zero => rfl
  | succ fuel ih =>
    have hinside : body locals.inside =
        (do return (← body locals.inside).outside locals.inside) := hb locals.inside
    rw [repeatWhile, repeatWhile, hc, hb locals, hinside]
    simp only [bind_assoc, pure_bind]
    congr
    funext v
    split
    · simp only [bind_assoc, outside_outside]
      congr
      funext outcome
      cases outcome with
      | next after => exact ih
      | returned value => rfl
    · rfl

/-- Nor does a statement that is no declaration, and it leaves the map as it is. -/
theorem execute_inside (fuel : Nat) {s : Stmt} (h : s.isStatement) :
    execute fuel locals s = (do return (← execute fuel locals.inside s).outside locals) := by
  induction fuel generalizing locals s with
  | zero => rfl
  | succ fuel ih =>
    have hall : evaluate fuel locals.inside = evaluate fuel locals := funext (evaluate_inside fuel)
    cases s with
    | expression e | print e | result line e =>
      simp [execute, hall, Outcome.outside]
    | block body =>
      simp only [execute, bind_assoc, pure_bind, outside_outside]
      rfl
    | branch condition yes no =>
      simp only [execute, hall, bind_assoc]
      congr
      funext v
      cases no with
      | none =>
        split
        · exact ih h
        · rfl
      | some other =>
        have harms := Bool.and_eq_true_iff.1 h
        split
        · exact ih harms.1
        · exact ih harms.2
    | loop condition body =>
      have hbody : body.isStatement := h
      exact repeatWhile_inside (evaluate_inside fuel condition) (fun _ => ih hbody) fuel
    | varDecl | funDecl | classDecl => cases h

/-- A statement that is no declaration is followed by others with the same map. -/
theorem next_eq_of_isStatement {fuel : Nat} {s : Stmt} (h : s.isStatement)
    {l l' : LexicalMachine} {after : Locals}
    (hrun : execute fuel locals s l = .ok (.next after) l') : after = locals := by
  rw [execute_inside fuel h] at hrun
  obtain ⟨outcome, m, -, hrun⟩ := bind_eq_ok hrun
  cases outcome with
  | next _ => cases hrun; rfl
  | returned _ => cases hrun

/-! ### The parts of a loop -/

variable {fuel fuel' : Nat}

/-- A loop without a condition goes on like one whose condition is absent. -/
theorem completes_condition (hle : fuel ≤ fuel') (scope : Locals) (condition : Option Expr) :
    Completes
      (do return (← evaluate fuel scope (condition.getD (.literal (.bool true)))).isTruthy)
      (holds (evaluate fuel') scope condition) := by
  cases condition with
  | none =>
    cases fuel with
    | zero => exact .exhausted
    | succ fuel => exact .refl _
  | some e => exact ((completes_of_le hle).1 scope e).bind fun v => .refl _

/-- An iteration of the tree runs the body and then, if the body ended normally, the
increment. -/
theorem completes_iteration (hle : fuel ≤ fuel') (scope : List (String × Nat)) (f : ForStatement)
    {go : Locals → Lexical Outcome} {go' : Lexical Outcome}
    (hgo : Completes (go (some scope)) go') :
    Completes
      (do
        match ← execute fuel (some scope) (Grammar.followedBy f.body f.increment) with
        | .next after => go after
        | .returned value => return .returned value)
      (do
        match ← execute fuel' (some scope) f.body with
        | .next _ =>
          increase (evaluate fuel') (some scope) f.increment
          go'
        | .returned value => return .returned value) := by
  cases f.increment with
  | none =>
    refine ((completes_of_le hle).2 _ f.body).bindWhere fun outcome l l' hrun => ?_
    cases outcome with
    | next after =>
      cases next_eq_of_isStatement f.isStatement_body hrun
      exact hgo
    | returned value => exact .refl _
  | some e =>
    cases fuel with
    | zero => exact .exhausted
    | succ fuel =>
      have hle' : fuel ≤ fuel' := by omega
      simp only [Grammar.followedBy, execute, executeAll, Option.getD_some, bind_assoc]
      refine ((completes_of_le hle').2 _ f.body).bindWhere fun outcome l l' hrun => ?_
      cases outcome with
      | next after =>
        cases next_eq_of_isStatement f.isStatement_body hrun
        cases fuel with
        | zero => exact .exhausted
        | succ fuel =>
          have hle'' : fuel ≤ fuel' := by omega
          simp only [execute, increase, bind_assoc]
          exact ((completes_of_le hle'').1 _ e).bind fun _ => hgo
      | returned value => exact .refl _

/-- A choice by the truth of a value and a choice by a test that agree. -/
theorem completes_choice {p : Lexical (Value Locals)} {q : Lexical Bool}
    {yes yes' : Lexical Outcome} (h : Completes (do return (← p).isTruthy) q)
    (hyes : Completes yes yes') (no : Outcome) :
    Completes (do if (← p).isTruthy then yes else return no)
      (do if ← q then yes' else return no) := by
  have hboth : Completes ((do return (← p).isTruthy) >>= fun b => if b then yes else return no)
      (q >>= fun b => if b then yes' else return no) := by
    refine h.bind fun b => ?_
    cases b with
    | true => exact hyes
    | false => exact .refl _
  simpa only [bind_assoc, pure_bind] using hboth

/-- By induction on the bound of the iterations: the loop of the tree and the clauses
test, run and increase in turn. -/
theorem completes_loop (hle : fuel ≤ fuel') (scope : List (String × Nat)) (f : ForStatement)
    {count count' : Nat} (hcount : count ≤ count') :
    Completes
      (repeatWhile (fun here => evaluate fuel here (f.condition.getD (.literal (.bool true))))
        (fun here => execute fuel here (Grammar.followedBy f.body f.increment)) count (some scope))
      (iterate (evaluate fuel') (execute fuel') (some scope) f count') := by
  induction count generalizing count' with
  | zero => exact .exhausted
  | succ count ih =>
    cases count' with
    | zero => cases hcount
    | succ count' =>
      exact completes_choice (completes_condition hle (some scope) f.condition)
        (completes_iteration hle scope f (ih (Nat.le_of_succ_le_succ hcount))) _

/-- A variable that is declared in a scope is in its map afterwards. -/
theorem exists_scope_of_declare {scope : List (String × Nat)} {text : String}
    {value : Value Locals} {l l' : LexicalMachine} {after : Locals}
    (h : declare (some scope) text value l = .ok after l') : ∃ inner, after = some inner := by
  cases h
  exact ⟨_, rfl⟩

/-- **The tree of a `for` statement runs its clauses.** -/
theorem completes_tree (fuel : Nat) (locals : Locals) (f : ForStatement) :
    Completes (execute (fuel + 1) locals f.tree)
      (executeFor (evaluate fuel) (execute fuel) fuel locals f) := by
  cases hfirst : f.first with
  | absent =>
    have htree : f.tree.isStatement := Parse.isStatement_forLoop _ _ _ f.isStatement_body
    -- No block stands for the scope of the loop, and none is missed.
    rw [execute_inside (fuel + 1) htree, ForStatement.tree, Parse.forLoop_eq, executeFor, hfirst]
    exact (completes_loop (Nat.le_refl _) _ f (Nat.le_refl _)).bind fun outcome => .refl _
  | varDecl name value =>
    rw [ForStatement.tree, Parse.forLoop_eq, executeFor, hfirst]
    cases fuel with
    | zero => exact .exhausted
    | succ fuel =>
      simp only [FirstClause.stmt?, Grammar.precededBy, execute, executeAll, enter, bind_assoc,
        pure_bind]
      have hmore := (completes_of_le (Nat.le_succ fuel)).1
      refine (completes_evaluateOption hmore _ value).bind fun v => ?_
      refine (Completes.refl _).bindWhere fun after l l' hdeclare => ?_
      obtain ⟨inner, rfl⟩ := exists_scope_of_declare hdeclare
      have hiterate := completes_loop (Nat.le_succ fuel) inner f (Nat.le_succ fuel)
      refine hiterate.bind fun outcome => ?_
      cases outcome <;> exact .refl _
  | expression e =>
    rw [ForStatement.tree, Parse.forLoop_eq, executeFor, hfirst]
    cases fuel with
    | zero => exact .exhausted
    | succ fuel =>
      simp only [FirstClause.stmt?, Grammar.precededBy, execute, executeAll, enter, bind_assoc,
        pure_bind]
      refine ((completes_of_le (Nat.le_succ fuel)).1 _ e).bind fun _ => ?_
      refine (completes_loop (Nat.le_succ fuel) _ f (Nat.le_succ fuel)).bind fun outcome => ?_
      cases outcome <;> exact .refl _

end Lexical

namespace Loops

variable {fuel fuel' : Nat}

/-- Programs whose `for` statements run by their clauses do what their trees do, by
induction on the bound of the trees. -/
theorem completes_clauses (reading : LoopReading) (hle : fuel ≤ fuel') :
    (∀ locals e, Completes (Lexical.evaluate fuel locals e) (evaluate reading fuel' locals e)) ∧
      ∀ locals s, Completes (Lexical.execute fuel locals s) (execute reading fuel' locals s) := by
  induction fuel generalizing fuel' with
  | zero => exact ⟨fun _ _ => .exhausted, fun _ _ => .exhausted⟩
  | succ fuel ih =>
    cases fuel' with
    | zero => cases hle
    | succ fuel' =>
      have hle' := Nat.le_of_succ_le_succ hle
      obtain ⟨hev, hex⟩ := ih hle'
      refine ⟨fun locals e => ?_, fun locals s => ?_⟩
      · rw [Lexical.evaluate_succ, evaluate]
        exact completes_evaluateWith hev hex locals e
      · rw [execute]
        cases hfind : reading.find? s with
        | none =>
          rw [Lexical.execute_succ]
          exact completes_executeWith hev hex hle' locals s
        | some f =>
          rw [← reading.tree_eq hfind]
          exact (completes_tree fuel locals f).trans (completes_executeFor hev hex hle' locals f)

/-- One `for` statement, whether or not it is found by the reading. -/
theorem completes_forStatement (reading : LoopReading) (hle : fuel ≤ fuel') (locals : Locals)
    (f : ForStatement) :
    Completes (Lexical.execute fuel locals f.tree)
      (executeFor (evaluate reading fuel') (execute reading fuel') fuel' locals f) := by
  cases fuel with
  | zero => exact .exhausted
  | succ fuel =>
    have hle' : fuel ≤ fuel' := Nat.le_of_succ_le hle
    obtain ⟨hev, hex⟩ := completes_clauses reading hle'
    exact (completes_tree fuel locals f).trans (completes_executeFor hev hex hle' locals f)

/-- A program whose `for` statements run by their clauses completes the program with their
trees. -/
theorem completes_executeProgram (reading : LoopReading) (hle : fuel ≤ fuel') (ss : List Stmt) :
    Completes (Lexical.executeProgram fuel ss) (executeProgram reading fuel' ss) := by
  induction ss with
  | nil => exact .refl _
  | cons s rest ih => exact ((completes_clauses reading hle).2 none s).bind fun _ => ih

end Loops

end Lox
