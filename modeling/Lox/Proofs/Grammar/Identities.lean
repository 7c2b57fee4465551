import Mathlib.Data.List.Perm.Subperm
import Lox.Program
import Lox.Proofs.Grammar.Soundness
import Lox.Tree.Reference

/-!
# Who has which identity

Every node that a binding has to be found for carries an identity, and no two
nodes carry the same one. This holds of all trees that are read, whatever is wrong
with the tokens: identities are also used up by targets that become assignments,
by expressions that are thrown away and by declarations that are dropped, and
those are never handed out again.

A parser goes on from the references in the trees that were read before it, and
yields trees with references from among those and with new ones. The next identity
only grows, so what is handed out later is new.
-/

namespace Lox

open Grammar

/-- The identities of some references. -/
def Reference.ids (references : List Reference) : List Nat := references.map (·.ref.id)

/-- References whose identities were handed out from `n` on and before `m`, each to
one of them. -/
structure Handed (n m : Nat) (references : List Reference) : Prop where
  /-- Identities were handed out in order. -/
  le : n ≤ m
  /-- Each reference has one of those identities. -/
  range : ∀ r ∈ references, n ≤ r.ref.id ∧ r.ref.id < m
  /-- No two references have the same one. -/
  distinct : (Reference.ids references).Nodup

namespace Handed

variable {n k m : Nat} {a b : List Reference}

/-- Where there are no references, none of them has the identity of another one. -/
theorem nil (h : n ≤ m) : Handed n m [] := ⟨h, nofun, List.nodup_nil⟩

/-- Identities that are handed out later are others. -/
theorem append (ha : Handed n k a) (hb : Handed k m b) : Handed n m (a ++ b) := by
  have hle := ha.le
  have hle' := hb.le
  refine ⟨by omega, fun r hr => ?_, ?_⟩
  · rcases List.mem_append.1 hr with hr | hr
    · have h := ha.range r hr
      omega
    · have h := hb.range r hr
      omega
  · rw [Reference.ids, List.map_append, List.nodup_append]
    refine ⟨ha.distinct, hb.distinct, fun i hi j hj hij => ?_⟩
    obtain ⟨r, hr, rfl⟩ := List.mem_map.1 hi
    obtain ⟨r', hr', rfl⟩ := List.mem_map.1 hj
    have h := ha.range r hr
    have h' := hb.range r' hr'
    omega

/-- References may be dropped and put in another order. -/
theorem keep (ha : Handed n m a) (h : ∀ r, b.count r ≤ a.count r) : Handed n m b := by
  have hsub : b.Subperm a := List.subperm_ext_iff.2 fun r _ => h r
  obtain ⟨l, hperm, hl⟩ := hsub
  refine ⟨ha.le, fun r hr => ha.range r (hl.subset (hperm.symm.subset hr)), ?_⟩
  have hdistinct : (Reference.ids l).Nodup := ha.distinct.sublist (hl.map _)
  exact (hperm.map _).nodup_iff.1 hdistinct

end Handed

namespace Parse

variable {α β : Type} {old new : List Reference}

/-- A parser that goes on from trees with the references `old`: what it yields has
references from among those and new ones, all with different identities. -/
def Numbers (old : List Reference) (references : α → List Reference) (p : Parse α) : Prop :=
  ∀ (n : Nat) (c : Cursor), Handed n c.nextId old →
    match p c with
    | .ok a after => c.nextId ≤ after.nextId ∧ Handed n after.nextId (references a)
    | .error _ after => c.nextId ≤ after.nextId

/-- The references of a declaration that may have been dropped. -/
abbrev inOptional (s : Option Stmt) : List Reference := Stmt.referencesList s.toList

/-- What is no tree has no references. -/
abbrev inNothing (_ : α) : List Reference := []

namespace Numbers

variable {refs : α → List Reference} {refs' : β → List Reference} {p : Parse α}
  {k : α → Parse β}

/-- A parser that takes nothing keeps the references it had. -/
theorem pure {a : α} (h : ∀ r, (refs a).count r ≤ old.count r) :
    Numbers old refs (Pure.pure a) :=
  fun _ _ hold => ⟨Nat.le_refl _, hold.keep h⟩

/-- What can go on from some trees can go on from more. -/
theorem weaken (hp : Numbers new refs p) (h : ∀ r, new.count r ≤ old.count r) :
    Numbers old refs p :=
  fun n c hold => hp n c (hold.keep h)

/-- The second parser goes on from the trees before the first one and from what the
first one yields. -/
theorem bind (hp : Numbers [] refs p) (hk : ∀ a, Numbers (old ++ refs a) refs' (k a)) :
    Numbers old refs' (p >>= k) := by
  intro n c hold
  have hfirst := hp c.nextId c (.nil (Nat.le_refl _))
  rw [bind_apply]
  revert hfirst
  cases p c with
  | error e after => exact fun hfirst => hfirst
  | ok a middle =>
    intro hfirst
    have hsecond := hk a n middle (hold.append hfirst.2)
    revert hsecond
    dsimp only
    cases k a middle with
    | error e after => exact fun hsecond => Nat.le_trans hfirst.1 hsecond
    | ok b after => exact fun hsecond => ⟨Nat.le_trans hfirst.1 hsecond.1, hsecond.2⟩

/-- Like `bind`, for a first parser that yields no tree. -/
theorem andThen (hp : Numbers [] inNothing p) (hk : ∀ a, Numbers old refs' (k a)) :
    Numbers old refs' (p >>= k) := by
  refine hp.bind fun a => ?_
  rw [List.append_nil]
  exact hk a

/-- What is built of a tree that was read may leave references out, but has no others. -/
theorem map (hp : Numbers [] refs p) (f : α → β)
    (h : ∀ a r, (refs' (f a)).count r ≤ (refs a).count r) : Numbers [] refs' (f <$> p) := by
  rw [map_eq_pure_bind]
  refine hp.bind fun a => ?_
  rw [List.nil_append]
  exact .pure (h a)

/-- Whichever of two parsers is chosen, identities differ. -/
theorem ite {b : Bool} {q : Parse α} (hp : Numbers old refs p) (hq : Numbers old refs q) :
    Numbers old refs (if b then p else q) := by
  cases b with
  | true => exact hp
  | false => exact hq

/-- A declaration that fails is dropped, and what it used up stays used up. -/
theorem recover {p : Parse Stmt} (hp : Numbers [] Stmt.references p) :
    Numbers [] inOptional (recover p) := by
  intro n c hold
  have hresult := hp n c hold
  unfold Parse.recover
  revert hresult
  cases p c with
  | ok s after =>
    intro hresult
    refine ⟨hresult.1, hresult.2.keep fun r => ?_⟩
    simp [inOptional, Stmt.referencesList]
  | error e after => exact fun hresult => ⟨hresult, .nil (Nat.le_trans hold.le hresult)⟩

end Numbers

/-! ### Single tokens -/

/-- A parser that hands out nothing and yields no tree. -/
theorem numbers_of_nextId {p : Parse α}
    (h : ∀ c, match p c with | .ok _ after | .error _ after => after.nextId = c.nextId) :
    Numbers [] inNothing p := by
  intro n c hold
  have hsame := h c
  revert hsame
  cases p c with
  | ok a after =>
    intro hsame
    have hle := hold.le
    exact ⟨by omega, .nil (by omega)⟩
  | error e after => exact fun hsame => Nat.le_of_eq hsame.symm

/-- A parser that fails has handed out nothing. -/
theorem numbers_fail (refs : α → List Reference) (cause : SyntaxCause) :
    Numbers old refs (fail cause) :=
  fun _ _ _ => Nat.le_refl _

/-- To look at the next token needs no identity. -/
theorem numbers_peek : Numbers [] inNothing peek := numbers_of_nextId fun _ => rfl

/-- To count the tokens that are left needs no identity. -/
theorem numbers_remaining : Numbers [] inNothing remaining := numbers_of_nextId fun _ => rfl

/-- To ask for the end of the input needs no identity. -/
theorem numbers_atEnd : Numbers [] inNothing atEnd := numbers_of_nextId fun _ => rfl

/-- A token is taken without an identity. -/
theorem numbers_advance : Numbers [] inNothing advance := numbers_of_nextId fun _ => rfl

/-- An error is reported without an identity. -/
theorem numbers_report (error : SyntaxError) : Numbers [] inNothing (report error) :=
  numbers_of_nextId fun _ => rfl

/-- This is the one parser that hands out an identity. -/
theorem numbers_freshId (kind : Reference.Kind) (name : Name) :
    Numbers [] (fun id => [⟨kind, ⟨id, name⟩⟩]) freshId := by
  intro n c hold
  have hle := hold.le
  refine ⟨Nat.le_succ _, ⟨Nat.le_succ_of_le hle, fun r hr => ?_, by simp [Reference.ids]⟩⟩
  rw [List.mem_singleton.1 hr]
  exact ⟨hle, Nat.lt_succ_self _⟩

/-- A token that may be there is taken without an identity. -/
theorem numbers_acceptMap (select : Token → Option α) :
    Numbers [] inNothing (acceptMap select) := by
  refine numbers_of_nextId fun c => ?_
  obtain ⟨ahead, finish, nextId, errors⟩ := c
  unfold acceptMap
  simp only [modifyGet_apply]
  cases ahead with
  | nil => rfl
  | cons token rest => cases hselect : select token <;> simp only [hselect]

/-- A symbol that may be there is taken without an identity. -/
theorem numbers_accept? (symbol : Symbol) : Numbers [] inNothing (accept? symbol) :=
  numbers_acceptMap _

/-- To ask for a symbol, and to take it, needs no identity. -/
theorem numbers_accept (symbol : Symbol) : Numbers [] inNothing (accept symbol) :=
  (numbers_accept? symbol).andThen fun _ => .pure fun _ => Nat.le_refl _

/-- To ask whether a symbol is next needs no identity. -/
theorem numbers_check (symbol : Symbol) : Numbers [] inNothing (check symbol) :=
  numbers_peek.andThen fun _ => .pure fun _ => Nat.le_refl _

/-- A token that has to be there is taken without an identity. -/
theorem numbers_expectMap (select : Token → Option α) (what : String) :
    Numbers [] inNothing (expectMap select what) := by
  refine (numbers_acceptMap select).andThen fun found => ?_
  cases found with
  | some a => exact .pure fun _ => Nat.le_refl _
  | none => exact numbers_fail _ _

/-- A symbol that has to be there is taken without an identity. -/
theorem numbers_expect (symbol : Symbol) (what : String) :
    Numbers [] inNothing (expect symbol what) :=
  numbers_expectMap _ what

/-- A name is taken without an identity: only a reference to a variable is given one. -/
theorem numbers_expectName (what : String) : Numbers [] inNothing (expectName what) :=
  numbers_expectMap _ what

/-- An operator that may be there is taken without an identity. -/
theorem numbers_acceptOperator (select : Symbol → Option α) :
    Numbers [] inNothing (acceptOperator select) :=
  numbers_acceptMap _

/-- A list that is too long is reported without an identity. -/
theorem numbers_reportSurplus (what : String) (count : Nat) :
    Numbers [] inNothing (reportSurplus what count) := by
  unfold reportSurplus
  split
  · exact numbers_peek.andThen fun token => numbers_report _
  · exact .pure fun _ => Nat.le_refl _

/-! ### Expressions -/

section Expressions

variable {operator : Symbol → Option Joiner} {level : Level} {operand expression : Parse Expr}

/-- An operation has the references of its two sides, those of the left one first. -/
theorem Operator.references_tree (op : Operator) (line : Nat) (a b : Expr) :
    (op.tree line a b).references = a.references ++ b.references := by
  cases op <;> rw [Operator.tree, Expr.references]

/-- An operator has no identity of its own. -/
theorem references_join (hknows : Knows operator level) {token : Token} {join : Joiner}
    {line : Nat} (h : (match token.kind with
      | .symbol symbol => (operator symbol).map (·, token.line)
      | _ => none) = some (join, line)) (a b : Expr) :
    (join line a b).references = a.references ++ b.references := by
  split at h
  · rename_i symbol _
    obtain ⟨join', hjoin, hpair⟩ := Option.map_eq_some_iff.1 h
    cases hpair
    obtain ⟨op, -, rfl⟩ := (hknows symbol join).1 hjoin
    exact Operator.references_tree op _ a b
  · cases h

/-- A parser that looks whether the token at the cursor has a meaning, and goes on
from there. -/
theorem Numbers.acceptMap_bind {refs : β → List Reference} (select : Token → Option α)
    {k : Option α → Parse β} (hnone : Numbers old refs (k none))
    (hsome : ∀ token a, select token = some a → Numbers old refs (k (some a))) :
    Numbers old refs (acceptMap select >>= k) := by
  intro n c hold
  rw [bind_apply]
  obtain ⟨ahead, finish, nextId, errors⟩ := c
  unfold acceptMap
  simp only [modifyGet_apply]
  cases ahead with
  | nil => exact hnone n _ hold
  | cons token rest =>
    dsimp only
    cases hselect : select token with
    | none => exact hnone n _ hold
    | some a => exact hsome token a hselect n ⟨rest, finish, nextId, errors⟩ hold

/-- Operations of one level go on from the operand on the left, and its references stay
apart from those on the right. -/
theorem numbers_joinLeft (hknows : Knows operator level) (h : Numbers [] Expr.references operand)
    (fuel : Nat) (left : Expr) :
    Numbers (left.references) Expr.references (joinLeft operator operand fuel left) := by
  induction fuel generalizing left with
  | zero => exact .pure fun _ => Nat.le_refl _
  | succ fuel ih =>
    refine .acceptMap_bind _ (.pure fun _ => Nat.le_refl _) fun token joined hselect => ?_
    refine h.bind fun right => (ih _).weaken fun r => ?_
    exact Nat.le_of_eq (by rw [references_join hknows hselect])

/-- Prefix operators add no references to those of the operand. -/
theorem numbers_unary (h : Numbers [] Expr.references operand) (fuel : Nat) :
    Numbers [] Expr.references (unary operand fuel) := by
  induction fuel with
  | zero => exact h
  | succ fuel ih =>
    refine (numbers_acceptOperator unaryOperator).andThen fun found => ?_
    cases found with
    | none => exact h
    | some applied =>
      refine ih.bind fun e => .pure fun r => ?_
      simp [Expr.references]

/-- The arguments of a call have identities of their own, also behind a surplus one. -/
theorem numbers_argumentList (h : Numbers [] Expr.references expression) (fuel count : Nat) :
    Numbers [] Expr.referencesList
      (argumentList expression fuel count) := by
  induction fuel generalizing count with
  | zero => exact numbers_fail _ _
  | succ fuel ih =>
    refine (numbers_reportSurplus "arguments" count).andThen fun _ => ?_
    refine h.bind fun argument => ?_
    refine (numbers_accept .comma).andThen fun found => .ite ?_ (.pure fun r => ?_)
    · refine (ih (count + 1)).bind fun rest => .pure fun r => ?_
      simp [Expr.referencesList]
    · simp [Expr.referencesList]

/-- The arguments between the parentheses of a call have identities of their own. -/
theorem numbers_arguments (h : Numbers [] Expr.references expression) (bound : Nat) :
    Numbers [] (fun values => Expr.referencesList values.1)
      (arguments bound expression) := by
  have hvalues : Numbers [] Expr.referencesList
      (argumentValues bound expression) := by
    refine (numbers_check .rightParen).andThen fun found => .ite (.pure fun r => ?_) ?_
    · simp [Expr.referencesList]
    · exact numbers_argumentList h (bound + 1) 0
  refine hvalues.bind fun values => ?_
  refine (numbers_expect _ _).andThen fun _ => .pure fun r => ?_
  exact Nat.le_refl _

/-- Calls and properties go on from the object, and what they add to it has other identities. -/
theorem numbers_suffixes (h : Numbers [] Expr.references expression) (bound fuel : Nat)
    (object : Expr) :
    Numbers object.references Expr.references (suffixes bound expression fuel object) := by
  induction fuel generalizing object with
  | zero => exact .pure fun _ => Nat.le_refl _
  | succ fuel ih =>
    refine (numbers_accept .leftParen).andThen fun found => .ite ?_ ?_
    · refine (numbers_arguments h bound).bind fun values => ?_
      refine (ih (.call object values.1 values.2)).weaken fun r => ?_
      simp [Expr.references]
    · refine (numbers_accept .dot).andThen fun found => .ite ?_ (.pure fun _ => Nat.le_refl _)
      refine (numbers_expectName _).andThen fun name => ?_
      refine (ih (.get object name)).weaken fun r => ?_
      simp [Expr.references]

/-- A primary expression is handed at most one identity of its own. -/
theorem numbers_primary (h : Numbers [] Expr.references expression) :
    Numbers [] Expr.references (primary expression) := by
  refine (numbers_expectMap primary? "expression").andThen fun start => ?_
  cases start with
  | literal value =>
    refine .pure fun r => ?_
    simp [Expr.references]
  | super line =>
    refine (numbers_expect _ _).andThen fun _ => ?_
    refine (numbers_expectName _).andThen fun method => ?_
    refine (numbers_freshId .super (superName line)).bind fun id => .pure fun r => ?_
    simp [Expr.references]
  | this line =>
    refine (numbers_freshId .this (thisName line)).bind fun id => .pure fun r => ?_
    simp [Expr.references]
  | name name =>
    refine (numbers_freshId .read name).bind fun id => .pure fun r => ?_
    simp [Expr.references]
  | group =>
    refine h.bind fun inner => ?_
    refine (numbers_expect _ _).andThen fun _ => .pure fun r => ?_
    simp [Expr.references]

/-- Whatever the levels are, the operations of all of them have different identities in
their operands. -/
theorem numbers_operationOf (h : Numbers [] Expr.references expression) (bound : Nat)
    {operators : List (Symbol → Option Joiner)} {levels : List Level}
    (hknow : List.Forall₂ Knows operators levels) :
    Numbers [] Expr.references (operationOf bound expression operators) := by
  induction hknow with
  | nil =>
    refine numbers_unary ?_ bound
    exact (numbers_primary h).bind fun object => numbers_suffixes h bound bound object
  | cons hknows _ ih => exact ih.bind fun left => numbers_joinLeft hknows ih bound left

/-- The identity of a variable that becomes the target of an assignment is used up:
the assignment has one of its own. -/
theorem numbers_assignment (h : Numbers [] Expr.references expression) (bound : Nat) :
    Numbers [] Expr.references (assignment bound expression) := by
  refine (numbers_operationOf h bound levelOperators_know).bind fun target => ?_
  refine (numbers_accept? .equal).andThen fun found => ?_
  cases found with
  | none => exact .pure fun _ => Nat.le_refl _
  | some equals =>
    refine h.bind fun value => ?_
    have hdrop : Numbers (([] ++ Expr.references target) ++ Expr.references value) Expr.references
        (do report ⟨equals, .invalidTarget⟩; return target) := by
      refine (numbers_report _).andThen fun _ => .pure fun r => ?_
      simp
    cases target with
    | var ref =>
      refine (numbers_freshId .assign ref.name).bind fun id => .pure fun r => ?_
      simp only [Expr.references, List.nil_append, List.count_cons, List.count_append,
        List.count_nil]
      omega
    | get object name =>
      refine .pure fun r => ?_
      simp [Expr.references]
    | _ => exact hdrop

/-- The depth to which expressions nest plays no part in the identities. -/
theorem numbers_expressionWithin (bound : Nat) :
    Numbers [] Expr.references (expressionWithin bound) := by
  induction bound with
  | zero => exact numbers_fail _ _
  | succ bound ih => exact numbers_assignment ih (bound + 1)

/-- All references in an expression have different identities. -/
theorem numbers_expression : Numbers [] Expr.references Parse.expression :=
  numbers_remaining.andThen fun bound => numbers_expressionWithin bound

end Expressions

/-! ### Statements -/

/-- The references in the initial value of a variable have different identities, where
there is one. -/
theorem numbers_initialValue : Numbers [] referencesOption initialValue := by
  refine (numbers_accept .equal).andThen fun _ => .ite ?_ (.pure fun _ => Nat.le_refl _)
  exact numbers_expression.map some fun _ _ => Nat.le_refl _

/-- A declaration of a variable has the references of its initial value. -/
theorem numbers_varDeclaration : Numbers [] Stmt.references varDeclaration := by
  refine (numbers_expectName _).andThen fun name => ?_
  refine numbers_initialValue.bind fun initializer => ?_
  refine (numbers_expect _ _).andThen fun _ => .pure fun r => ?_
  simp [Stmt.references]

/-- An expression as a statement has the references of the expression. -/
theorem numbers_expressionStatement : Numbers [] Stmt.references expressionStatement := by
  refine numbers_expression.bind fun e => ?_
  refine (numbers_expect _ _).andThen fun _ => .pure fun r => ?_
  simp [Stmt.references]

/-- An expression that may be left out has references with different identities, where it
is there. -/
theorem numbers_expressionUnless (symbol : Symbol) :
    Numbers [] referencesOption (expressionUnless symbol) := by
  refine (numbers_check symbol).andThen fun _ => .ite (.pure fun _ => Nat.le_refl _) ?_
  exact numbers_expression.map some fun _ _ => Nat.le_refl _

/-- Parameters are names, and need no identities. -/
theorem numbers_parameterList (fuel count : Nat) :
    Numbers [] inNothing (parameterList fuel count) := by
  induction fuel generalizing count with
  | zero => exact numbers_fail _ _
  | succ fuel ih =>
    refine (numbers_reportSurplus "parameters" count).andThen fun _ => ?_
    refine (numbers_expectName _).andThen fun name => ?_
    refine (numbers_accept .comma).andThen fun found => .ite ?_ (.pure fun _ => Nat.le_refl _)
    exact (ih (count + 1)).andThen fun _ => .pure fun _ => Nat.le_refl _

/-- The parameters between the parentheses of a function need no identities. -/
theorem numbers_parameters : Numbers [] inNothing parameters := by
  refine (numbers_check .rightParen).andThen fun found => .ite (.pure fun _ => Nat.le_refl _) ?_
  exact numbers_remaining.andThen fun bound => numbers_parameterList (bound + 1) 0

/-- The name of a superclass is a reference, and it is given an identity. -/
theorem numbers_superclassClause :
    Numbers [] (fun ref => (ref.map (Reference.mk .read)).toList) superclassClause := by
  refine (numbers_accept .less).andThen fun found => .ite ?_ (.pure fun _ => Nat.le_refl _)
  refine (numbers_expectName _).andThen fun superName => ?_
  exact (numbers_freshId .read superName).bind fun _ => .pure fun _ => Nat.le_refl _

/-- The first clause of a `for` statement has references with different identities, where
it is there. -/
theorem numbers_forInitializer : Numbers [] inOptional forInitializer := by
  have hsome : ∀ s r, (inOptional (some s)).count r ≤ (Stmt.references s).count r := by
    intro s r
    simp [inOptional, Stmt.referencesList]
  refine (numbers_accept .semicolon).andThen fun _ => .ite (.pure fun _ => Nat.le_refl _) ?_
  refine (numbers_accept .varWord).andThen fun _ => .ite ?_ ?_
  · exact numbers_varDeclaration.map some hsome
  · exact numbers_expressionStatement.map some hsome

/-- A `print` statement has the references of its expression. -/
theorem numbers_printStatement : Numbers [] Stmt.references printStatement := by
  refine numbers_expression.bind fun e => ?_
  refine (numbers_expect _ _).andThen fun _ => .pure fun r => ?_
  simp [Stmt.references]

/-- A `return` statement has the references of its value, where there is one. -/
theorem numbers_returnStatement (line : Nat) :
    Numbers [] Stmt.references (returnStatement line) := by
  refine (numbers_expressionUnless .semicolon).bind fun value => ?_
  refine (numbers_expect _ _).andThen fun _ => .pure fun r => ?_
  simp [Stmt.references]

/-- The parts of a `for` statement are moved around and none is copied. -/
theorem count_forLoop (initializer : Option Stmt) (condition increment : Option Expr)
    (body : Stmt) (r : Reference) :
    (Stmt.references (forLoop initializer condition increment body)).count r =
      (inOptional initializer).count r + (referencesOption condition).count r +
        (referencesOption increment).count r + (Stmt.references body).count r := by
  cases initializer <;> cases condition <;> cases increment <;>
    simp [inOptional, forLoop, Stmt.references, Stmt.referencesList, referencesOption,
      Expr.references, List.count_append] <;> omega

section Statements

variable {declaration : Parse (Option Stmt)} {statement : Parse Stmt}

/-- Declarations that could be read, before others. -/
theorem count_toList_append (first : Option Stmt) (rest : List Stmt) (r : Reference) :
    (Stmt.referencesList (first.toList ++ rest)).count r =
      (inOptional first).count r + (Stmt.referencesList rest).count r := by
  cases first <;> simp [inOptional, Stmt.referencesList, List.count_append]

/-- Declarations that stand one after the other have different identities, also where some
between them were dropped. -/
theorem numbers_declarationList (hd : Numbers [] inOptional declaration) (fuel : Nat) :
    Numbers [] Stmt.referencesList (declarationList declaration fuel) := by
  induction fuel with
  | zero => exact .pure fun _ => Nat.le_refl _
  | succ fuel ih =>
    refine (numbers_check .rightBrace).andThen fun closed => ?_
    refine numbers_atEnd.andThen fun ended => .ite (.pure fun _ => Nat.le_refl _) ?_
    refine hd.bind fun first => ih.bind fun rest => .pure fun r => ?_
    refine Nat.le_of_eq ?_
    rw [count_toList_append, List.nil_append, List.count_append]

/-- The declarations of a block have different identities. -/
theorem numbers_block (hd : Numbers [] inOptional declaration) :
    Numbers [] Stmt.referencesList (block declaration) := by
  refine numbers_remaining.andThen fun fuel => ?_
  refine (numbers_declarationList hd fuel).bind fun body => ?_
  refine (numbers_expect _ _).andThen fun _ => .pure fun r => ?_
  exact Nat.le_refl _

/-- The references of a function are those of its body. -/
theorem numbers_function (hd : Numbers [] inOptional declaration) (kind : String) :
    Numbers [] FunDecl.references (function declaration kind) := by
  refine (numbers_expectName _).andThen fun name => ?_
  refine (numbers_expect _ _).andThen fun _ => ?_
  refine numbers_parameters.andThen fun params => ?_
  refine (numbers_expect _ _).andThen fun _ => ?_
  refine (numbers_expect _ _).andThen fun _ => ?_
  refine (numbers_block hd).bind fun body => .pure fun r => ?_
  simp [FunDecl.references]

/-- The methods of a class have different identities. -/
theorem numbers_methodList (hd : Numbers [] inOptional declaration) (fuel : Nat) :
    Numbers [] FunDecl.referencesList
      (methodList declaration fuel) := by
  induction fuel with
  | zero => exact .pure fun _ => Nat.le_refl _
  | succ fuel ih =>
    refine (numbers_check .rightBrace).andThen fun closed => ?_
    refine numbers_atEnd.andThen fun ended => .ite (.pure fun _ => Nat.le_refl _) ?_
    refine (numbers_function hd "method").bind fun method => ih.bind fun rest => .pure fun r => ?_
    simp [FunDecl.referencesList]

/-- A class has the references of its superclass and of its methods, all different. -/
theorem numbers_classDeclaration (hd : Numbers [] inOptional declaration) :
    Numbers [] Stmt.references (classDeclaration declaration) := by
  refine (numbers_expectName _).andThen fun name => ?_
  refine numbers_superclassClause.bind fun superclass => ?_
  refine (numbers_expect _ _).andThen fun _ => ?_
  refine numbers_remaining.andThen fun fuel => ?_
  refine (numbers_methodList hd fuel).bind fun methods => ?_
  refine (numbers_expect _ _).andThen fun _ => .pure fun r => ?_
  cases superclass <;> simp [Stmt.references]

/-- What follows `else` has references with different identities, where it is there. -/
theorem numbers_elseBranch (hs : Numbers [] Stmt.references statement) :
    Numbers [] inOptional (elseBranch statement) := by
  refine (numbers_accept .elseWord).andThen fun _ => .ite ?_ (.pure fun _ => Nat.le_refl _)
  refine hs.map some fun s r => ?_
  simp [inOptional, Stmt.referencesList]

/-- The condition and the branches of an `if` statement have different identities. -/
theorem numbers_ifStatement (hs : Numbers [] Stmt.references statement) :
    Numbers [] Stmt.references (ifStatement statement) := by
  refine (numbers_expect _ _).andThen fun _ => ?_
  refine numbers_expression.bind fun condition => ?_
  refine (numbers_expect _ _).andThen fun _ => ?_
  refine hs.bind fun yes => ?_
  refine (numbers_elseBranch hs).bind fun no => .pure fun r => ?_
  cases no <;> simp [inOptional, Stmt.references, Stmt.referencesList]

/-- The condition and the body of a `while` statement have different identities. -/
theorem numbers_whileStatement (hs : Numbers [] Stmt.references statement) :
    Numbers [] Stmt.references (whileStatement statement) := by
  refine (numbers_expect _ _).andThen fun _ => ?_
  refine numbers_expression.bind fun condition => ?_
  refine (numbers_expect _ _).andThen fun _ => ?_
  refine hs.bind fun body => .pure fun r => ?_
  simp [Stmt.references]

/-- The clauses of a `for` statement have different identities; the loop has them in
another order than they are read in. -/
theorem numbers_forStatement (hs : Numbers [] Stmt.references statement) :
    Numbers [] Stmt.references (forStatement statement) := by
  refine (numbers_expect _ _).andThen fun _ => ?_
  refine numbers_forInitializer.bind fun initializer => ?_
  refine (numbers_expressionUnless .semicolon).bind fun condition => ?_
  refine (numbers_expect _ _).andThen fun _ => ?_
  refine (numbers_expressionUnless .rightParen).bind fun increment => ?_
  refine (numbers_expect _ _).andThen fun _ => ?_
  refine hs.bind fun body => .pure fun r => ?_
  rw [count_forLoop]
  simp only [List.nil_append, List.count_append, Nat.le_refl]

/-- Each kind of statement has references with different identities, when what is nested
in it has. -/
theorem numbers_statementWith (hd : Numbers [] inOptional declaration)
    (hs : Numbers [] Stmt.references statement) :
    Numbers [] Stmt.references (statementWith declaration statement) := by
  refine numbers_peek.andThen fun token => ?_
  split
  · exact numbers_advance.andThen fun _ => numbers_forStatement hs
  · exact numbers_advance.andThen fun _ => numbers_ifStatement hs
  · exact numbers_advance.andThen fun _ => numbers_whileStatement hs
  · exact numbers_advance.andThen fun _ => numbers_returnStatement token.line
  · exact numbers_advance.andThen fun _ => numbers_printStatement
  · refine numbers_advance.andThen fun _ => (numbers_block hd).map _ fun body r => ?_
    simp [Stmt.references]
  · exact numbers_expressionStatement

/-- A declaration has references with different identities, also where its errors make it
be dropped. -/
theorem numbers_declarationWith (hd : Numbers [] inOptional declaration)
    (hs : Numbers [] Stmt.references statement) :
    Numbers [] Stmt.references (declarationWith declaration statement) := by
  refine numbers_peek.andThen fun token => ?_
  split
  · exact numbers_advance.andThen fun _ => numbers_classDeclaration hd
  · refine numbers_advance.andThen fun _ => (numbers_function hd "function").map _ fun f r => ?_
    simp [Stmt.references]
  · exact numbers_advance.andThen fun _ => numbers_varDeclaration
  · exact numbers_statementWith hd hs

end Statements

/-- The depth to which statements nest plays no part in the identities. -/
theorem numbers_within (bound : Nat) :
    Numbers [] Stmt.references (statementWithin bound) ∧
      Numbers [] inOptional (declarationWithin bound) := by
  induction bound with
  | zero =>
    rw [statementWithin, declarationWithin]
    exact ⟨numbers_fail _ _, (numbers_fail _ _).recover⟩
  | succ bound ih =>
    rw [statementWithin, declarationWithin]
    exact ⟨numbers_statementWith ih.2 ih.1, (numbers_declarationWith ih.2 ih.1).recover⟩

/-- The statements that are left of a program have different identities. -/
theorem numbers_programList (fuel : Nat) : Numbers [] Stmt.referencesList (programList fuel) := by
  induction fuel with
  | zero => exact .pure fun _ => Nat.le_refl _
  | succ fuel ih =>
    have hfirst : Numbers [] inOptional declaration :=
      numbers_remaining.andThen fun bound => (numbers_within bound).2
    refine numbers_atEnd.andThen fun ended => .ite (.pure fun _ => Nat.le_refl _) ?_
    refine hfirst.bind fun first => ih.bind fun rest => .pure fun r => ?_
    refine Nat.le_of_eq ?_
    rw [count_toList_append, List.nil_append, List.count_append]

/-- All references in a program have different identities, whatever its tokens are. -/
theorem numbers_program : Numbers [] Stmt.referencesList program :=
  numbers_remaining.andThen fun fuel => numbers_programList fuel

end Parse

/-- The nodes of the trees that tokens are read as have identities of their own,
which reading handed out. -/
theorem handed_parseTokens (tokens : List Token) (n : Nat) :
    Handed n (parseTokens tokens n).nextId
      (Stmt.referencesList (parseTokens tokens n).statements) := by
  have hread := Parse.numbers_program n (Cursor.ofTokens tokens n) (.nil (Nat.le_refl _))
  unfold parseTokens
  revert hread
  cases Parse.program (Cursor.ofTokens tokens n) with
  | ok ss after => exact fun hread => hread.2
  | error e after => exact fun hread => .nil hread

/-- The nodes of a source, whatever is wrong with it. -/
theorem Program.handed (source : String) (n : Nat) :
    Handed n (ofSource source n).nextId
      (Stmt.referencesList (ofSource source n).statements) :=
  handed_parseTokens _ n

end Lox
