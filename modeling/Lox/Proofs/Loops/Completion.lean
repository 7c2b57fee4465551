import Lox.Proofs.Loops
import Lox.Proofs.Stateful

/-!
# Runs that were cut short

A run completes another one if it does the same, unless the other was cut short
by its bound. One layer of an evaluator keeps this: what a statement or an
expression does with parts that complete others completes what it does with
the others. So a run with a greater bound completes one with a smaller bound.
-/

namespace Lox.Lexical

open Loops

variable {α β : Type}

/-- The second step ends as the first one does and leaves the same behind, unless
the first one used up its bound. -/
def Completes (p q : Lexical α) : Prop :=
  ∀ l, (∃ l', p l = .error .exhausted l') ∨ q l = p l

namespace Completes

variable {p q r : Lexical α} {f g : α → Lexical β}

/-- Every run completes itself. -/
theorem refl (p : Lexical α) : Completes p p := fun _ => .inr rfl

/-- A run that used up its bound at once is completed by any other. -/
theorem exhausted : Completes (throw .exhausted) q := fun l => .inl ⟨l, rfl⟩

/-- Runs that complete one another do so in a chain. -/
theorem trans (h : Completes p q) (h' : Completes q r) : Completes p r := by
  intro l
  rcases h l with hp | hq
  · exact .inl hp
  · rw [← hq]
    exact h' l

/-- A step that has ended is completed by what ends in the same way. -/
theorem eq_of_ends (h : Completes p q) {l : LexicalMachine}
    {result : EStateM.Result Halt LexicalMachine α} (hp : p l = result)
    (hends : ∀ l', result ≠ .error .exhausted l') : q l = result := by
  rcases h l with ⟨l', hexhausted⟩ | hq
  · exact absurd (hp.symm.trans hexhausted) (hends l')
  · exact hq.trans hp

/-- The second steps are compared only on what the first steps can yield. -/
theorem bindWhere (h : Completes p q)
    (hf : ∀ a l l', p l = .ok a l' → Completes (f a) (g a)) :
    Completes (p >>= f) (q >>= g) := by
  intro l
  rw [bind_apply, bind_apply]
  rcases h l with ⟨l', hp⟩ | hq
  · rw [hp]
    exact .inl ⟨l', rfl⟩
  · rw [hq]
    cases hp : p l with
    | ok a l' => exact hf a l l' hp l'
    | error e l' => exact .inr rfl

/-- Steps complete one another when each of them does. -/
theorem bind (h : Completes p q) (hf : ∀ a, Completes (f a) (g a)) :
    Completes (p >>= f) (q >>= g) :=
  h.bindWhere fun a _ _ _ => hf a

/-- What goes on after the same step may be completed alone. -/
theorem andThen (p : Lexical α) (hf : ∀ a, Completes (f a) (g a)) :
    Completes (p >>= f) (p >>= g) :=
  (refl p).bind hf

/-- A call is completed when what it runs is. -/
theorem asCall (h : Completes p q) : Completes (asCall p) (asCall q) := by
  intro l
  unfold Lexical.asCall
  rcases h { l with calls := l.calls + 1 } with ⟨l', hp⟩ | hq
  · rw [hp]
    exact .inl ⟨_, rfl⟩
  · rw [hq]
    exact .inr rfl

end Completes

/-- By induction on the bound of the loop that is completed. -/
theorem completes_repeatWhile {condition condition' : Locals → Lexical (Value Locals)}
    {body body' : Locals → Lexical Outcome}
    (hc : ∀ locals, Completes (condition locals) (condition' locals))
    (hb : ∀ locals, Completes (body locals) (body' locals)) {fuel fuel' : Nat}
    (hle : fuel ≤ fuel') (locals : Locals) :
    Completes (repeatWhile condition body fuel locals)
      (repeatWhile condition' body' fuel' locals) := by
  induction fuel generalizing fuel' locals with
  | zero => exact .exhausted
  | succ fuel ih =>
    cases fuel' with
    | zero => cases hle
    | succ fuel' =>
      refine (hc locals).bind fun v => ?_
      split
      · refine (hb locals).bind fun outcome => ?_
        cases outcome with
        | next after => exact ih (Nat.le_of_succ_le_succ hle) after
        | returned value => exact .refl _
      · exact .refl _

section Layer

variable {ev ev' : Locals → Expr → Lexical (Value Locals)}
  {ex ex' : Locals → Stmt → Lexical Outcome}
  (hev : ∀ locals e, Completes (ev locals e) (ev' locals e))
  (hex : ∀ locals s, Completes (ex locals s) (ex' locals s))

section Expressions

include hev

/-- Arguments are completed one by one. -/
theorem completes_evaluateAll (locals : Locals) (es : List Expr) :
    Completes (Eval.evaluateAll (ev locals) es) (Eval.evaluateAll (ev' locals) es) := by
  induction es with
  | nil => exact .refl _
  | cons e rest ih => exact (hev locals e).bind fun v => ih.bind fun vs => .refl _

/-- An expression that may be missing is completed. -/
theorem completes_evaluateOption (locals : Locals) (o : Option Expr) :
    Completes (Eval.evaluateOption (ev locals) o) (Eval.evaluateOption (ev' locals) o) := by
  cases o with
  | none => exact .refl _
  | some e => exact hev locals e

/-- The first clause of a `for` statement is completed. -/
theorem completes_enter (scope : Locals) (first : FirstClause) :
    Completes (enter ev scope first) (enter ev' scope first) := by
  cases first with
  | absent => exact .refl _
  | varDecl name value => exact (completes_evaluateOption hev scope value).bind fun v => .refl _
  | expression e => exact (hev scope e).bind fun v => .refl _

/-- The condition of a `for` statement is completed. -/
theorem completes_holds (scope : Locals) (condition : Option Expr) :
    Completes (holds ev scope condition) (holds ev' scope condition) := by
  cases condition with
  | none => exact .refl _
  | some e => exact (hev scope e).bind fun v => .refl _

/-- The increment of a `for` statement is completed. -/
theorem completes_increase (scope : Locals) (increment : Option Expr) :
    Completes (increase ev scope increment) (increase ev' scope increment) := by
  cases increment with
  | none => exact .refl _
  | some e => exact (hev scope e).bind fun v => .refl _

end Expressions

section Calls

include hex

/-- Statements that run one after the other are completed. -/
theorem completes_executeAll (locals : Locals) (ss : List Stmt) :
    Completes (executeAll ex locals ss) (executeAll ex' locals ss) := by
  induction ss generalizing locals with
  | nil => exact .refl _
  | cons s rest ih =>
    refine (hex locals s).bind fun outcome => ?_
    cases outcome with
    | next after => exact ih after
    | returned value => exact .refl _

/-- A call of a function is completed when its body is. -/
theorem completes_invoke (closure : Closure Locals) (arguments : List (Value Locals)) :
    Completes (invoke ex closure arguments) (invoke ex' closure arguments) := by
  refine .andThen _ fun locals => ?_
  exact (completes_executeAll hex locals _).bind fun outcome => .refl _

/-- A construction is completed when its initializer is. -/
theorem completes_construct (cls : Class Locals) (arguments : List (Value Locals)) :
    Completes (construct ex cls arguments) (construct ex' cls arguments) := by
  refine .andThen _ fun object => ?_
  cases cls.initializer? with
  | none => exact .refl _
  | some method =>
    refine .andThen _ fun bound => ?_
    exact (completes_invoke hex bound arguments).bind fun _ => .refl _

/-- A call of a value is completed, whatever the value is. -/
theorem completes_callValue (callee : Value Locals) (arguments : List (Value Locals))
    (line : Nat) :
    Completes (callValue ex callee arguments line) (callValue ex' callee arguments line) := by
  have happly (callable : Callable Locals) :
      Completes (apply ex callable arguments) (apply ex' callable arguments) := by
    cases callable with
    | native native => exact .refl _
    | function closure => exact completes_invoke hex closure arguments
    | cls cls => exact completes_construct hex cls arguments
  unfold callValue
  cases callee.callable? with
  | none => exact .refl _
  | some callable =>
    dsimp only
    split
    · exact .refl _
    · refine .andThen _ fun machine => ?_
      split
      · exact .refl _
      · exact (happly callable).asCall

end Calls

include hev hex

/-- One layer of expressions is completed when the expressions in it are. -/
theorem completes_evaluateWith (locals : Locals) (e : Expr) :
    Completes (evaluateWith ev ex locals e) (evaluateWith ev' ex' locals e) := by
  cases e with
  | literal _ | var _ | this _ _ | super _ _ _ => exact .refl _
  | group inner => exact hev locals inner
  | unary op line operand => exact (hev locals operand).bind fun v => .refl _
  | binary op line left right =>
    exact (hev locals left).bind fun a => (hev locals right).bind fun b => .refl _
  | logical op line left right =>
    refine (hev locals left).bind fun a => ?_
    split
    · exact .refl _
    · exact hev locals right
  | assign ref value => exact (hev locals value).bind fun v => .refl _
  | call callee arguments line =>
    refine (hev locals callee).bind fun function => ?_
    refine (completes_evaluateAll hev locals arguments).bind fun values => ?_
    exact completes_callValue hex function values line
  | get object name => exact (hev locals object).bind fun v => .refl _
  | set object name value =>
    refine (hev locals object).bind fun v => .andThen _ fun id => ?_
    exact (hev locals value).bind fun w => .refl _

/-- One layer of statements is completed when what is in it is, also by a run with a
greater bound on loops. -/
theorem completes_executeWith {fuel fuel' : Nat} (hle : fuel ≤ fuel') (locals : Locals)
    (s : Stmt) :
    Completes (executeWith ev ex fuel locals s) (executeWith ev' ex' fuel' locals s) := by
  cases s with
  | expression e | print e => exact (hev locals e).bind fun v => .refl _
  | varDecl name value | result line value =>
    exact (completes_evaluateOption hev locals value).bind fun v => .refl _
  | block body => exact (completes_executeAll hex _ body).bind fun outcome => .refl _
  | branch condition yes no =>
    refine (hev locals condition).bind fun v => ?_
    split
    · exact hex locals yes
    · cases no with
      | none => exact .refl _
      | some other => exact hex locals other
  | loop condition body =>
    exact completes_repeatWhile (fun locals => hev locals condition)
      (fun locals => hex locals body) hle locals
  | funDecl _ | classDecl _ _ _ => exact .refl _

/-- The iterations of a `for` statement are completed by those with a greater bound. -/
theorem completes_iterate {fuel fuel' : Nat} (hle : fuel ≤ fuel') (scope : Locals)
    (f : ForStatement) :
    Completes (iterate ev ex scope f fuel) (iterate ev' ex' scope f fuel') := by
  induction fuel generalizing fuel' with
  | zero => exact .exhausted
  | succ fuel ih =>
    cases fuel' with
    | zero => cases hle
    | succ fuel' =>
      refine (completes_holds hev scope f.condition).bind fun b => ?_
      split
      · refine (hex scope f.body).bind fun outcome => ?_
        cases outcome with
        | next after =>
          refine (completes_increase hev scope f.increment).bind fun _ => ?_
          exact ih (Nat.le_of_succ_le_succ hle)
        | returned value => exact .refl _
      · exact .refl _

/-- A `for` statement with parts that complete others. -/
theorem completes_executeFor {fuel fuel' : Nat} (hle : fuel ≤ fuel') (locals : Locals)
    (f : ForStatement) :
    Completes (executeFor ev ex fuel locals f) (executeFor ev' ex' fuel' locals f) := by
  refine (completes_enter hev _ f.first).bind fun scope => ?_
  exact (completes_iterate hev hex hle scope f).bind fun outcome => .refl _

end Layer

/-- An evaluator is one layer over the evaluator with the next smaller bound. -/
theorem evaluate_succ (fuel : Nat) (locals : Locals) (e : Expr) :
    evaluate (fuel + 1) locals e = evaluateWith (evaluate fuel) (execute fuel) locals e := by
  cases e <;> rfl

/-- Execution is one layer over what it executes with one less as its bound. -/
theorem execute_succ (fuel : Nat) (locals : Locals) (s : Stmt) :
    execute (fuel + 1) locals s = executeWith (evaluate fuel) (execute fuel) fuel locals s := by
  cases s <;> rfl

/-- A run with a greater bound completes one with a smaller bound. -/
theorem completes_of_le {fuel fuel' : Nat} (hle : fuel ≤ fuel') :
    (∀ locals e, Completes (evaluate fuel locals e) (evaluate fuel' locals e)) ∧
      ∀ locals s, Completes (execute fuel locals s) (execute fuel' locals s) := by
  induction fuel generalizing fuel' with
  | zero => exact ⟨fun _ _ => .exhausted, fun _ _ => .exhausted⟩
  | succ fuel ih =>
    cases fuel' with
    | zero => cases hle
    | succ fuel' =>
      have hle' := Nat.le_of_succ_le_succ hle
      obtain ⟨hev, hex⟩ := ih hle'
      refine ⟨fun locals e => ?_, fun locals s => ?_⟩
      · rw [evaluate_succ, evaluate_succ]
        exact completes_evaluateWith hev hex locals e
      · rw [execute_succ, execute_succ]
        exact completes_executeWith hev hex hle' locals s

end Lox.Lexical
