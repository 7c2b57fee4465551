import Lox.Proofs.Grammar.First
import Lox.Proofs.Grammar.Reading

/-!
# Parsers read what the grammar derives

Every parser of the grammar, when it ends without a report, has taken tokens
that derive the tree it yields. The parsers of expressions come first, then
those of statements. What a parser looks at without taking it matters at one
place only: a choice without a second branch ends where no `else` follows, and
this is why each `else` belongs to the nearest `if`.
-/

namespace Lox.Parse

open Grammar

/-- The operators that a parser of one level knows are those of the level. -/
def Knows (operator : Symbol → Option Joiner) (level : Level) : Prop :=
  ∀ s join, operator s = some join ↔ ∃ op, (s, op) ∈ level ∧ op.tree = join

/-- The operators of the parsers of all levels, loosest first. -/
def levelOperators : List (Symbol → Option Joiner) :=
  [orOperator, andOperator, equalityOperator, comparisonOperator, termOperator, factorOperator]

/-- The parser of the operations that the given operators build. -/
def operationOf (bound : Nat) (expression : Parse Expr) :
    List (Symbol → Option Joiner) → Parse Expr
  | [] => unary (call bound expression) bound
  | operator :: operators => level bound operator (operationOf bound expression operators)

/-- The operations of the language are those of all its levels, over calls with prefix
operators. -/
theorem operation_eq (bound : Nat) (expression : Parse Expr) :
    operation bound expression = operationOf bound expression levelOperators := rfl

/-- The parsers of the levels know the operators that the table of precedence has, level
by level. -/
theorem levelOperators_know : List.Forall₂ Knows levelOperators precedence := by
  refine .cons ?_ (.cons ?_ (.cons ?_ (.cons ?_ (.cons ?_ (.cons ?_ .nil))))) <;>
    intro s join <;> cases s <;>
    simp [orOperator, andOperator, equalityOperator, comparisonOperator, termOperator,
      factorOperator, Operator.tree]

/-- The parser of prefix operators knows those of the grammar. -/
theorem unaryOperator_knows (s : Symbol) (op : UnaryOp) :
    unaryOperator s = some op ↔ (s, op) ∈ unaryOperators := by
  cases s <;> simp [unaryOperator, unaryOperators, eq_comm]

/-- A token that starts a literal is one. -/
theorem primary?_literal {t : Token} {v : Literal} (h : primary? t = some (.literal v)) :
    literal? t.kind = some v := by
  unfold primary? at h
  split at h <;> simp_all [literal?]

/-- A token that starts a `super` is the keyword, and it has its line. -/
theorem primary?_super {t : Token} {line : Nat} (h : primary? t = some (.super line)) :
    t.is .superWord ∧ line = t.line := by
  unfold primary? at h
  split at h <;> simp_all [Token.is]

/-- A token that starts a `this` is the keyword, and it has its line. -/
theorem primary?_this {t : Token} {line : Nat} (h : primary? t = some (.this line)) :
    t.is .thisWord ∧ line = t.line := by
  unfold primary? at h
  split at h <;> simp_all [Token.is]

/-- A token that starts a variable is an identifier, and the name is its lexeme on its line. -/
theorem primary?_name {t : Token} {name : Name} (h : primary? t = some (.name name)) :
    t.kind = .identifier ∧ name = t.asName := by
  unfold primary? at h
  split at h <;> simp_all [Token.asName]

/-- A token that starts a group is a parenthesis. -/
theorem primary?_group {t : Token} (h : primary? t = some .group) : t.is .leftParen := by
  unfold primary? at h
  split at h <;> simp_all [Token.is]

/-- The relation of a parser of a phrase: the tokens taken derive the phrase. -/
abbrev Derived {α : Type} (phrase : α → Phrase) : α → Nat → List Token → Nat → List Token → Prop :=
  fun a n ts m _ => (phrase a).Derives n ts m

section Expressions

variable {bound : Nat} {expression : Parse Expr}

/-- Arguments that are read without a report are a list of the grammar, no longer than allowed. -/
theorem reads_argumentList (he : Reads expression (Derived .expression)) (fuel count : Nat) :
    Reads (argumentList expression fuel count) fun es n ts m _ =>
      (Phrase.list es).Derives n ts m ∧ count + es.length ≤ maxArguments := by
  induction fuel generalizing count with
  | zero => exact reads_fail _ _
  | succ fuel ih =>
    rw [argumentList]
    refine ((reads_reportSurplus "arguments" count).bindStill fun _ => he.bind fun e =>
      Reads.ifAccept .comma ((ih (count + 1)).bind fun es => reads_pure (e :: es))
        (reads_pure [e])).mono ?_
    intro es n ts m rest h
    obtain ⟨-, hcount, e, ts₁, k, ts₂, he, hmore, rfl⟩ := h
    rcases hmore with ⟨c, us, hc, ⟨more, ts₃, j, ts₄, hmore, ⟨rfl, rfl, rfl⟩, rfl⟩, rfl⟩ |
      ⟨⟨rfl, rfl, rfl⟩, -⟩
    · rw [List.append_nil, List.length_cons]
      exact ⟨.more he hc hmore.1, by omega⟩
    · rw [List.append_nil, List.length_singleton]
      exact ⟨.last he, by omega⟩

/-- What is read between the parentheses of a call is a list of arguments of the grammar. -/
theorem reads_argumentValues (he : Reads expression (Derived .expression)) :
    Reads (argumentValues bound expression) fun es n ts m _ =>
      (Phrase.arguments es).Derives n ts m ∧ es.length ≤ maxArguments := by
  refine Reads.ifCheck .rightParen ((reads_pure []).mono ?_) ((reads_argumentList he _ _).mono ?_)
  · intro es n ts m rest h
    obtain ⟨rfl, rfl, rfl⟩ := h
    exact ⟨.noArguments, Nat.zero_le _⟩
  · intro es n ts m rest h
    exact ⟨.someArguments h.1, by omega⟩

/-- What follows an operand makes a call or a property of it, again and again. -/
theorem reads_suffixes (he : Reads expression (Derived .expression)) (fuel : Nat) (object : Expr) :
    Reads (suffixes bound expression fuel object) fun e n ts m _ =>
      ∀ i us, (Phrase.call object).Derives i us n → (Phrase.call e).Derives i (us ++ ts) m := by
  induction fuel generalizing object with
  | zero =>
    refine (reads_pure object).mono ?_
    intro e n ts m rest h i us ho
    obtain ⟨rfl, rfl, rfl⟩ := h
    rwa [List.append_nil]
  | succ fuel ih =>
    rw [suffixes]
    refine (Reads.ifAccept .leftParen
      (((reads_argumentValues he).bind fun es => (reads_expect .rightParen _).bind
        fun r => reads_pure (es, r.line)).bind fun values => ih (.call object values.1 values.2))
      (Reads.ifAccept .dot ((reads_expectName _).bind fun name => ih (.get object name))
        (reads_pure object))).mono ?_
    intro e n ts m rest h i us ho
    rcases h with ⟨l, vs, hl, ⟨values, ts₁, k, ts₂, hvalues, he, rfl⟩, rfl⟩ |
      ⟨⟨d, vs, hd, ⟨name, ts₁, k, ts₂, ⟨t, ⟨ht, rfl⟩, rfl, rfl⟩, he, rfl⟩, rfl⟩ |
        ⟨⟨rfl, rfl, rfl⟩, -⟩, -⟩
    · obtain ⟨es, ts₃, j, ts₄, hes, ⟨r, ts₅, j', ts₆, ⟨r', ⟨rfl, hr⟩, rfl, rfl⟩,
        ⟨rfl, rfl, rfl⟩, rfl⟩, rfl⟩ := hvalues
      have hcall := he _ _ (.invocation ho hl hes.1 hes.2 hr)
      simpa using hcall
    · have hget := he _ _ (.property ho hd ht)
      simpa using hget
    · rwa [List.append_nil]

/-- A primary expression is read as the grammar has it. -/
theorem reads_primary (he : Reads expression (Derived .expression)) :
    Reads (primary expression) (Derived .primary) := by
  refine ((reads_expectMap primary? "expression").bind
    (S := fun start e n ts m _ => ∀ t, primary? t = some start →
      (Phrase.primary e).Derives n (t :: ts) m) fun start => ?_).mono ?_
  · cases start with
    | literal value =>
      refine (reads_pure (Expr.literal value)).mono ?_
      intro e n ts m rest h t ht
      obtain ⟨rfl, rfl, rfl⟩ := h
      exact .literal (primary?_literal ht)
    | super line =>
      refine ((reads_expect .dot _).bind fun _ => (reads_expectName _).bind fun method =>
        reads_freshId.bind fun id => reads_pure (Expr.super id line method)).mono ?_
      intro e n ts m rest h s hs
      obtain ⟨-, ts₁, k, ts₂, ⟨d, ⟨-, hd⟩, rfl, rfl⟩, h, rfl⟩ := h
      obtain ⟨-, ts₃, k, ts₄, ⟨t, ⟨ht, rfl⟩, rfl, rfl⟩, h, rfl⟩ := h
      obtain ⟨-, ts₅, k, ts₆, ⟨rfl, rfl, rfl⟩, ⟨rfl, rfl, rfl⟩, rfl⟩ := h
      obtain ⟨hsuper, rfl⟩ := primary?_super hs
      exact .super hsuper hd ht
    | this line =>
      refine (reads_freshId.bind fun id => reads_pure (Expr.this id line)).mono ?_
      intro e n ts m rest h t ht
      obtain ⟨-, ts₁, k, ts₂, ⟨rfl, rfl, rfl⟩, ⟨rfl, rfl, rfl⟩, rfl⟩ := h
      obtain ⟨hthis, rfl⟩ := primary?_this ht
      exact .this hthis
    | name name =>
      refine (reads_freshId.bind fun id => reads_pure (Expr.var ⟨id, name⟩)).mono ?_
      intro e n ts m rest h t ht
      obtain ⟨-, ts₁, k, ts₂, ⟨rfl, rfl, rfl⟩, ⟨rfl, rfl, rfl⟩, rfl⟩ := h
      obtain ⟨hname, rfl⟩ := primary?_name ht
      exact .name hname
    | group =>
      refine (he.bind fun inner => (reads_expect .rightParen _).bind fun _ =>
        reads_pure (Expr.group inner)).mono ?_
      intro e n ts m rest h l hl
      obtain ⟨inner, ts₁, k, ts₂, hinner, ⟨-, ts₃, k, ts₄, ⟨r, ⟨-, hr⟩, rfl, rfl⟩,
        ⟨rfl, rfl, rfl⟩, rfl⟩, rfl⟩ := h
      exact .group (primary?_group hl) hinner hr
  · intro e n ts m rest h
    obtain ⟨start, ts₁, k, ts₂, ⟨t, ht, rfl, rfl⟩, he, rfl⟩ := h
    exact he t ht

/-- A call is read as the grammar has it, with all its suffixes. -/
theorem reads_call (he : Reads expression (Derived .expression)) :
    Reads (call bound expression) (Derived .call) := by
  refine ((reads_primary he).bind fun object => reads_suffixes he bound object).mono ?_
  intro e n ts m rest h
  obtain ⟨object, ts₁, k, ts₂, hobject, he, rfl⟩ := h
  exact he _ _ (.primary hobject)

/-- Prefix operators are read as the grammar has them, in front of a call. -/
theorem reads_unary {operand : Parse Expr} (ho : Reads operand (Derived .call)) (fuel : Nat) :
    Reads (unary operand fuel) (Derived .unary) := by
  induction fuel with
  | zero => exact ho.mono fun e n ts m rest h => .operand h
  | succ fuel ih =>
    rw [unary]
    refine ((reads_acceptOperator unaryOperator).bind
      (S := fun o e n ts m _ => (o = none → (Phrase.unary e).Derives n ts m) ∧
        ∀ op line, o = some (op, line) → ∃ operand, e = .unary op line operand ∧
          (Phrase.unary operand).Derives n ts m) fun o => ?_).mono ?_
    · cases o with
      | none =>
        refine ho.mono ?_
        intro e n ts m rest h
        exact ⟨fun _ => .operand h, fun _ _ hsome => by cases hsome⟩
      | some o =>
        refine (ih.bind fun e => reads_pure (Expr.unary o.1 o.2 e)).mono ?_
        intro e n ts m rest h
        obtain ⟨operand, ts₁, k, ts₂, hoperand, ⟨rfl, rfl, rfl⟩, rfl⟩ := h
        rw [List.append_nil]
        refine ⟨fun hnone => absurd hnone (Option.some_ne_none _), ?_⟩
        intro op line hsome
        cases hsome
        exact ⟨operand, rfl, hoperand⟩
    · intro e n ts m rest h
      obtain ⟨o, ts₁, k, ts₂, ⟨rfl, hread⟩, he, rfl⟩ := h
      rcases hread with ⟨op, t, s, rfl, ht, hs, rfl⟩ | ⟨rfl, rfl⟩
      · obtain ⟨operand, rfl, hoperand⟩ := he.2 op t.line rfl
        exact .applied ht ((unaryOperator_knows s op).1 hs) hoperand
      · exact he.1 rfl

/-- Operators of one level join what was read before them with what follows,
from left to right. -/
theorem reads_joinLeft {operator : Symbol → Option Joiner} {level : Level} {levels : List Level}
    (hk : Knows operator level) {operand : Parse Expr}
    (ho : Reads operand (Derived (.operation levels))) (fuel : Nat) (left : Expr) :
    Reads (joinLeft operator operand fuel left) fun e n ts m _ =>
      ∀ i us, (Phrase.operation (level :: levels) left).Derives i us n →
        (Phrase.operation (level :: levels) e).Derives i (us ++ ts) m := by
  induction fuel generalizing left with
  | zero =>
    refine (reads_pure left).mono ?_
    intro e n ts m rest h i us hl
    obtain ⟨rfl, rfl, rfl⟩ := h
    rwa [List.append_nil]
  | succ fuel ih =>
    rw [joinLeft]
    refine ((reads_acceptOperator operator).bind
      (S := fun o e n ts m _ => (o = none → e = left ∧ ts = [] ∧ m = n) ∧
        ∀ join line, o = some (join, line) →
          ∃ right us vs k, (Phrase.operation levels right).Derives n us k ∧
          (∀ i ws, (Phrase.operation (level :: levels) (join line left right)).Derives i ws k →
            (Phrase.operation (level :: levels) e).Derives i (ws ++ vs) m) ∧ ts = us ++ vs)
      fun o => ?_).mono ?_
    · cases o with
      | none =>
        refine (reads_pure left).mono ?_
        intro e n ts m rest h
        exact ⟨fun _ => ⟨h.2.2, h.1, h.2.1⟩, fun _ _ hsome => by cases hsome⟩
      | some o =>
        refine (ho.bind fun right => ih (o.1 o.2 left right)).mono ?_
        intro e n ts m rest h
        obtain ⟨right, us, k, vs, hright, he, rfl⟩ := h
        refine ⟨fun hnone => absurd hnone (Option.some_ne_none _), ?_⟩
        intro join line hsome
        cases hsome
        exact ⟨right, us, vs, k, hright, he, rfl⟩
    · intro e n ts m rest h i us hl
      obtain ⟨o, ts₁, k, ts₂, ⟨rfl, hread⟩, he, rfl⟩ := h
      rcases hread with ⟨join, t, s, rfl, ht, hs, rfl⟩ | ⟨rfl, rfl⟩
      · obtain ⟨right, vs, ws, k, hright, hrest, rfl⟩ := he.2 join t.line rfl
        obtain ⟨op, hop, rfl⟩ := (hk s join).1 hs
        have hjoined := hrest _ _ (.joined hl ht hop hright)
        simpa using hjoined
      · obtain ⟨rfl, rfl, rfl⟩ := he.1 rfl
        simpa using hl

/-- Operations are read level by level, as the grammar has them. -/
theorem reads_operationOf (he : Reads expression (Derived .expression))
    {operators : List (Symbol → Option Joiner)} {levels : List Level}
    (hk : List.Forall₂ Knows operators levels) :
    Reads (operationOf bound expression operators) (Derived (.operation levels)) := by
  induction hk with
  | nil => exact (reads_unary (reads_call he) bound).mono fun e n ts m rest h => .tightest h
  | cons hk _ ih =>
    refine (ih.bind fun left => reads_joinLeft hk ih bound left).mono ?_
    intro e n ts m rest h
    obtain ⟨left, ts₁, k, ts₂, hleft, he, rfl⟩ := h
    exact he _ _ (.tighter hleft)

end Expressions

/-- The trees that an assignment can have on its left side. -/
def IsTarget : Expr → Prop
  | .var _ => True
  | .get _ _ => True
  | _ => False

/-- An operation that is a target is a call without any operator. -/
theorem call_of_isTarget {levels : List Level} {e : Expr} {n m : Nat} {ts : List Token}
    (h : (Phrase.operation levels e).Derives n ts m) (he : IsTarget e) :
    (Phrase.call e).Derives n ts m := by
  induction levels with
  | nil =>
    cases h with
    | tightest h =>
      cases h with
      | operand h => exact h
      | applied => exact he.elim
  | cons level levels ih =>
    cases h with
    | tighter h => exact ih h
    | @joined _ _ op => cases op <;> exact he.elim

/-- An operation that is a variable is the token of its name. -/
theorem operation_var {ref : Ref} {n m : Nat} {ts : List Token}
    (h : (Phrase.operation precedence (.var ref)).Derives n ts m) :
    ∃ t, t.kind = .identifier ∧ ref = ⟨n, t.asName⟩ ∧ ts = [t] ∧ m = n + 1 := by
  have hc := call_of_isTarget h trivial
  cases hc with
  | primary hp =>
    cases hp with
    | name ht => exact ⟨_, ht, rfl, rfl, rfl⟩

/-- An operation that is a property ends with the point and the token of its name. -/
theorem operation_get {object : Expr} {name : Name} {n m : Nat} {ts : List Token}
    (h : (Phrase.operation precedence (.get object name)).Derives n ts m) :
    ∃ us d t, (Phrase.call object).Derives n us m ∧ d.is .dot ∧ t.kind = .identifier ∧
      name = t.asName ∧ ts = us ++ [d, t] := by
  have hc := call_of_isTarget h trivial
  cases hc with
  | primary hp => cases hp
  | property ho hd ht => exact ⟨_, _, _, ho, hd, ht, rfl, rfl⟩

/-- An assignment is read as the grammar has it: its target was first read as an operation. -/
theorem reads_assignment {bound : Nat} {expression : Parse Expr}
    (he : Reads expression (Derived .expression)) :
    Reads (assignment bound expression) (Derived .expression) := by
  have hoperation : Reads (operation bound expression) (Derived (.operation precedence)) := by
    rw [operation_eq]
    exact reads_operationOf he levelOperators_know
  refine (hoperation.bind fun target => (reads_accept? .equal).bind
    (S := fun o e n ts m _ => (o = none → e = target ∧ ts = [] ∧ m = n) ∧
      ∀ q i us, o = some q → q.is .equal → (Phrase.operation precedence target).Derives i us n →
        (Phrase.expression e).Derives i (us ++ q :: ts) m) fun o => ?_).mono ?_
  · cases o with
    | none =>
      refine (reads_pure target).mono ?_
      intro e n ts m rest h
      exact ⟨fun _ => ⟨h.2.2, h.1, h.2.1⟩, fun _ _ _ hsome => by cases hsome⟩
    | some q =>
      dsimp only
      refine (he.bind (S := fun value e n ts m _ => ∀ i us vs k, q.is .equal →
        (Phrase.operation precedence target).Derives i us k →
        (Phrase.expression value).Derives k vs n → ts = [] ∧
        (Phrase.expression e).Derives i (us ++ q :: vs) m) fun value => ?_).mono ?_
      · split
        · refine (reads_freshId.bind fun id => reads_pure (Expr.assign ⟨id, _⟩ value)).mono ?_
          intro e n ts m rest h i us vs k hq hv hvalue
          obtain ⟨_, ts₁, k, ts₂, ⟨rfl, rfl, rfl⟩, ⟨rfl, rfl, rfl⟩, rfl⟩ := h
          obtain ⟨t, ht, rfl, rfl, rfl⟩ := operation_var hv
          exact ⟨rfl, .assign ht hq hvalue⟩
        · refine (reads_pure _).mono ?_
          intro e n ts m rest h i us vs k hq hv hvalue
          obtain ⟨rfl, rfl, rfl⟩ := h
          obtain ⟨ws, d, t, ho, hd, ht, rfl, rfl⟩ := operation_get hv
          have hset := Phrase.Derives.set ho hd ht hq hvalue
          exact ⟨rfl, by simpa using hset⟩
        · refine ((reads_report _ fun _ _ _ _ _ => False).bind fun _ => reads_pure _).mono ?_
          intro e n ts m rest h
          obtain ⟨-, ts₁, k, ts₂, hfalse, -⟩ := h
          exact hfalse.elim
      · intro e n ts m rest h
        refine ⟨fun hnone => absurd hnone (Option.some_ne_none _), ?_⟩
        intro q' i us hsome hq hv
        cases hsome
        obtain ⟨value, ts₁, k, ts₂, hvalue, hd, rfl⟩ := h
        obtain ⟨rfl, hassigned⟩ := hd i us ts₁ _ hq hv hvalue
        simpa using hassigned
  · intro e n ts m rest h
    obtain ⟨target, ts₁, k, ts₂, htarget, ⟨o, ts₃, j, ts₄, ⟨rfl, ho⟩, he, rfl⟩, rfl⟩ := h
    rcases ho with ⟨q, rfl, hq, rfl⟩ | ⟨rfl, rfl, -⟩
    · exact he.2 q _ _ rfl hq htarget
    · obtain ⟨rfl, rfl, rfl⟩ := he.1 rfl
      simpa using Phrase.Derives.operation htarget

/-- An expression is read as the grammar has it, however deep it may nest. -/
theorem reads_expressionWithin (bound : Nat) :
    Reads (expressionWithin bound) (Derived .expression) := by
  induction bound with
  | zero => exact reads_fail _ _
  | succ bound ih => exact reads_assignment ih

/-- An expression is read as the grammar has it. -/
theorem reads_expression : Reads expression (Derived .expression) := by
  refine (reads_remaining.bindStill fun count => reads_expressionWithin count).mono ?_
  intro e n ts m rest h
  obtain ⟨-, -, he⟩ := h
  exact he

/-- The relation of a parser of statements. A statement that is still open ends
where no `else` follows. -/
abbrev Stated : Stmt → Nat → List Token → Nat → List Token → Prop :=
  fun s n ts m rest => ∃ o, (Sentence.statement o s).Derives true n ts m ∧
    (o = true → ¬StartsWith .elseWord rest)

/-- The relation of a parser that may drop what it cannot read: without a report
nothing was dropped. -/
abbrev Declared : Option Stmt → Nat → List Token → Nat → List Token → Prop :=
  fun o n ts m _ => ∃ s, o = some s ∧ (Sentence.declaration s).Derives true n ts m

/-- What is left where a statement may start are the last tokens. -/
theorem skipToBoundary_suffix (previous : Token) (ts : List Token) :
    skipToBoundary previous ts <:+ ts := by
  induction ts generalizing previous with
  | nil => exact List.suffix_rfl
  | cons t rest ih =>
    rw [skipToBoundary]
    split
    · exact List.suffix_rfl
    · exact (ih t).trans (List.suffix_cons t rest)

/-- What is left behind a faulty declaration are the last tokens. -/
theorem synchronize_suffix (ts : List Token) : synchronize ts <:+ ts := by
  cases ts with
  | nil => exact List.suffix_rfl
  | cons t rest => exact (skipToBoundary_suffix t rest).trans (List.suffix_cons t rest)

/-- A parser that may fail reads what it reads without a report: a failure is reported. -/
theorem reads_recover {α : Type} {p : Parse α}
    {R : α → Nat → List Token → Nat → List Token → Prop} (hp : Reads p R) :
    Reads (recover p) fun o n ts m rest => ∃ a, o = some a ∧ R a n ts m rest := by
  intro c hc
  have hr := hp c hc
  unfold recover
  revert hr
  cases p c with
  | ok a after =>
    intro hr
    obtain ⟨hadv, hread⟩ := hr
    refine ⟨hadv, fun hsize => ?_⟩
    obtain ⟨ts, hts, hR⟩ := hread hsize
    exact ⟨ts, hts, a, rfl, hR⟩
  | error error after =>
    intro hadv
    have herrors : after.errors.size + 1 = (after.report error).errors.size := by
      simp [Cursor.report]
    have hle := hadv.errors
    refine ⟨⟨hadv.finish, hadv.nextId, ?_, ?_⟩, fun hsize => ?_⟩
    · change c.errors.size ≤ (after.report error).errors.size
      omega
    · exact (synchronize_suffix _).trans hadv.ahead
    · change (after.report error).errors.size = c.errors.size at hsize
      omega

/-- The initial value of a variable is read as the grammar has it, with the `=` in front of it. -/
theorem reads_initialValue : Reads initialValue fun value n ts m _ => Initial value n ts m := by
  refine (Reads.ifAccept .equal (reads_expression.map some) (reads_pure none)).mono ?_
  intro value n ts m rest h
  rcases h with ⟨q, us, hq, ⟨e, rfl, he⟩, rfl⟩ | ⟨⟨rfl, rfl, rfl⟩, -⟩
  · exact .some hq he
  · exact .none

/-- A declaration of a variable is read as the grammar has it, behind its keyword. -/
theorem reads_varDeclaration : Reads varDeclaration fun s n ts m _ => Variable s n ts m := by
  refine ((reads_expectName _).bind fun name => reads_initialValue.bind fun value =>
    (reads_expect .semicolon _).bind fun _ => reads_pure (Stmt.varDecl name value)).mono ?_
  intro s n ts m rest h
  obtain ⟨-, ts₁, k, ts₂, ⟨t, ⟨ht, rfl⟩, rfl, rfl⟩, h, rfl⟩ := h
  obtain ⟨value, ts₃, k, ts₄, hvalue, h, rfl⟩ := h
  obtain ⟨-, ts₅, k, ts₆, ⟨q, ⟨-, hq⟩, rfl, rfl⟩, ⟨rfl, rfl, rfl⟩, rfl⟩ := h
  exact .mk ht hvalue hq

/-- An expression that ends with a semicolon is read as the grammar has it. -/
theorem reads_plain {α : Type} (what : String) (f : Expr → α) :
    Reads (do let e ← expression; let _ ← expect .semicolon what; return f e)
      fun a n ts m _ => ∃ e, a = f e ∧ Plain e n ts m := by
  refine (reads_expression.bind fun e => (reads_expect .semicolon _).bind fun _ =>
    reads_pure (f e)).mono ?_
  intro a n ts m rest h
  obtain ⟨e, ts₁, k, ts₂, he, ⟨-, ts₃, k, ts₄, ⟨q, ⟨-, hq⟩, rfl, rfl⟩, ⟨rfl, rfl, rfl⟩, rfl⟩,
    rfl⟩ := h
  exact ⟨e, rfl, .mk he hq⟩

/-- An expression that may be left out is read as the grammar has it. -/
theorem reads_expressionUnless (symbol : Symbol) :
    Reads (expressionUnless symbol) fun value n ts m _ => Optional value n ts m := by
  refine Reads.ifCheck symbol ((reads_pure none).mono ?_) ((reads_expression.map some).mono ?_)
  · intro value n ts m rest h
    obtain ⟨rfl, rfl, rfl⟩ := h
    exact .none
  · intro value n ts m rest h
    obtain ⟨e, rfl, he⟩ := h
    exact .some he

/-- Parameters that are read without a report are names with commas between them, no more
than allowed. -/
theorem reads_parameterList (fuel count : Nat) :
    Reads (parameterList fuel count) fun names n ts m _ =>
      Parameters names ts ∧ m = n ∧ count + names.length ≤ maxArguments := by
  induction fuel generalizing count with
  | zero => exact reads_fail _ _
  | succ fuel ih =>
    rw [parameterList]
    refine ((reads_reportSurplus "parameters" count).bindStill fun _ =>
      (reads_expectName _).bind fun name =>
        Reads.ifAccept .comma ((ih (count + 1)).bind fun names => reads_pure (name :: names))
          (reads_pure [name])).mono ?_
    intro names n ts m rest h
    obtain ⟨-, hcount, -, ts₁, k, ts₂, ⟨t, ⟨ht, rfl⟩, rfl, rfl⟩, hmore, rfl⟩ := h
    rcases hmore with ⟨c, us, hc, ⟨more, ts₃, j, ts₄, hmore, ⟨rfl, rfl, rfl⟩, rfl⟩, rfl⟩ |
      ⟨⟨rfl, rfl, rfl⟩, -⟩
    · obtain ⟨hps, rfl, hmax⟩ := hmore
      rw [List.append_nil, List.length_cons]
      exact ⟨.more ht hc hps, rfl, by omega⟩
    · rw [List.append_nil, List.length_singleton]
      exact ⟨.last ht, rfl, by omega⟩

/-- The parameters of a function may be left out. -/
theorem reads_parameters :
    Reads parameters fun names n ts m _ => m = n ∧
      (names = [] ∧ ts = [] ∨ Parameters names ts ∧ names.length ≤ maxArguments) := by
  refine Reads.ifCheck .rightParen ((reads_pure []).mono ?_)
    ((reads_remaining.bindStill fun count => reads_parameterList (count + 1) 0).mono ?_)
  · intro names n ts m rest h
    exact ⟨h.2.1, .inl ⟨h.2.2, h.1⟩⟩
  · intro names n ts m rest h
    obtain ⟨-, -, hps, rfl, hmax⟩ := h
    exact ⟨rfl, .inr ⟨hps, by omega⟩⟩

section Statements

variable {declaration : Parse (Option Stmt)} {statement : Parse Stmt}

/-- Declarations are read one by one; without a report none of them was dropped. -/
theorem reads_declarationList (hd : Reads declaration Declared) (fuel : Nat) :
    Reads (declarationList declaration fuel) fun ss n ts m _ =>
      (Sentence.declarations ss).Derives true n ts m := by
  have hnone : Reads (pure []) fun ss n ts m _ =>
      (Sentence.declarations ss).Derives true n ts m := by
    refine (reads_pure []).mono ?_
    intro ss n ts m rest h
    obtain ⟨rfl, rfl, rfl⟩ := h
    exact .noDeclarations
  induction fuel with
  | zero => exact hnone
  | succ fuel ih =>
    rw [declarationList]
    refine ((reads_check .rightBrace).bindStill fun b => reads_atEnd.bindStill fun b' =>
      Reads.ite (fun _ => hnone) fun _ => (hd.bind fun o => ih.bind fun more =>
        reads_pure (o.toList ++ more)).mono ?_).mono ?_
    · intro ss n ts m rest h
      obtain ⟨-, ts₁, k, ts₂, ⟨s, rfl, hs⟩, ⟨more, ts₃, k', ts₄, hmore, ⟨rfl, rfl, rfl⟩, rfl⟩,
        rfl⟩ := h
      rw [List.append_nil]
      exact .declarations hs hmore
    · intro ss n ts m rest h
      obtain ⟨-, -, -, -, hss⟩ := h
      exact hss

/-- A block is read as the grammar has it, up to its closing brace. -/
theorem reads_block (hd : Reads declaration Declared) :
    Reads (block declaration) fun ss n ts m _ => ∃ us r,
      (Sentence.declarations ss).Derives true n us m ∧ r.is .rightBrace ∧ ts = us ++ [r] := by
  refine (reads_remaining.bindStill fun count => (reads_declarationList hd count).bind fun ss =>
    (reads_expect .rightBrace _).bind fun _ => reads_pure ss).mono ?_
  intro ss n ts m rest h
  obtain ⟨-, -, body, ts₁, k, ts₂, hbody, ⟨-, ts₃, k', ts₄, ⟨r, ⟨-, hr⟩, rfl, rfl⟩,
    ⟨rfl, rfl, rfl⟩, rfl⟩, rfl⟩ := h
  exact ⟨ts₁, r, hbody, hr, rfl⟩

/-- A function is read as the grammar has it, behind its keyword. -/
theorem reads_function (hd : Reads declaration Declared) (kind : String) :
    Reads (function declaration kind) fun f n ts m _ =>
      (Sentence.function f).Derives true n ts m := by
  refine ((reads_expectName _).bind fun name => (reads_expect .leftParen _).bind fun _ =>
    reads_parameters.bind fun params => (reads_expect .rightParen _).bind fun _ =>
    (reads_expect .leftBrace _).bind fun _ => (reads_block hd).bind fun body =>
    reads_pure (FunDecl.mk name params body)).mono ?_
  intro f n ts m rest h
  obtain ⟨-, ts₁, k₁, us₁, ⟨t, ⟨ht, rfl⟩, rfl, rfl⟩, h, rfl⟩ := h
  obtain ⟨-, ts₂, k₂, us₂, ⟨l, ⟨-, hl⟩, rfl, rfl⟩, h, rfl⟩ := h
  obtain ⟨params, ts₃, k₃, us₃, ⟨rfl, hparams⟩, h, rfl⟩ := h
  obtain ⟨-, ts₄, k₄, us₄, ⟨r, ⟨-, hr⟩, rfl, rfl⟩, h, rfl⟩ := h
  obtain ⟨-, ts₅, k₅, us₅, ⟨b, ⟨-, hb⟩, rfl, rfl⟩, h, rfl⟩ := h
  obtain ⟨body, ts₆, k₆, us₆, ⟨vs, c, hbody, hc, rfl⟩, ⟨rfl, rfl, rfl⟩, rfl⟩ := h
  rcases hparams with ⟨rfl, rfl⟩ | ⟨hps, hmax⟩
  · simpa using Sentence.Derives.functionWithout ht hl hr hb hbody hc
  · simpa using Sentence.Derives.functionWith ht hl hps hmax hr hb hbody hc

/-- The methods of a class are read one by one. -/
theorem reads_methodList (hd : Reads declaration Declared) (fuel : Nat) :
    Reads (methodList declaration fuel) fun fs n ts m _ =>
      (Sentence.functions fs).Derives true n ts m := by
  have hnone : Reads (pure []) fun fs n ts m _ => (Sentence.functions fs).Derives true n ts m := by
    refine (reads_pure []).mono ?_
    intro fs n ts m rest h
    obtain ⟨rfl, rfl, rfl⟩ := h
    exact .noMethods
  induction fuel with
  | zero => exact hnone
  | succ fuel ih =>
    rw [methodList]
    refine ((reads_check .rightBrace).bindStill fun b => reads_atEnd.bindStill fun b' =>
      Reads.ite (fun _ => hnone) fun _ => ((reads_function hd _).bind fun f => ih.bind fun more =>
        reads_pure (f :: more)).mono ?_).mono ?_
    · intro fs n ts m rest h
      obtain ⟨f, ts₁, k, ts₂, hf, ⟨more, ts₃, k', ts₄, hmore, ⟨rfl, rfl, rfl⟩, rfl⟩, rfl⟩ := h
      rw [List.append_nil]
      exact .methods hf hmore
    · intro fs n ts m rest h
      obtain ⟨-, -, -, -, hfs⟩ := h
      exact hfs

/-- The superclass of a class is read as the grammar has it, where there is one. -/
theorem reads_superclassClause :
    Reads superclassClause fun parent n ts m _ => Parent parent n ts m := by
  refine (Reads.ifAccept .less ((reads_expectName _).bind fun name => reads_freshId.bind fun id =>
    reads_pure (some (Ref.mk id name))) (reads_pure none)).mono ?_
  intro parent n ts m rest h
  rcases h with ⟨l, us, hl, ⟨-, ts₁, k, ts₂, ⟨t, ⟨ht, rfl⟩, rfl, rfl⟩, ⟨_, ts₃, k', ts₄,
    ⟨rfl, rfl, rfl⟩, ⟨rfl, rfl, rfl⟩, rfl⟩, rfl⟩, rfl⟩ | ⟨⟨rfl, rfl, rfl⟩, -⟩
  · exact .some hl ht
  · exact .none

/-- A class is read as the grammar has it, behind its keyword. -/
theorem reads_classDeclaration (hd : Reads declaration Declared) :
    Reads (classDeclaration declaration) fun s n ts m _ => ∀ w, w.is .classWord →
      (Sentence.declaration s).Derives true n (w :: ts) m := by
  refine ((reads_expectName _).bind fun name => reads_superclassClause.bind fun parent =>
    (reads_expect .leftBrace _).bind fun _ => reads_remaining.bindStill fun count =>
    (reads_methodList hd count).bind fun methods => (reads_expect .rightBrace _).bind fun _ =>
    reads_pure (Stmt.classDecl name parent methods)).mono ?_
  intro s n ts m rest h w hw
  obtain ⟨-, ts₁, k₁, us₁, ⟨t, ⟨ht, rfl⟩, rfl, rfl⟩, h, rfl⟩ := h
  obtain ⟨parent, ts₂, k₂, us₂, hparent, h, rfl⟩ := h
  obtain ⟨-, ts₃, k₃, us₃, ⟨l, ⟨-, hl⟩, rfl, rfl⟩, ⟨-, -, h⟩, rfl⟩ := h
  obtain ⟨methods, ts₄, k₄, us₄, hmethods, h, rfl⟩ := h
  obtain ⟨-, ts₅, k₅, us₅, ⟨r, ⟨-, hr⟩, rfl, rfl⟩, ⟨rfl, rfl, rfl⟩, rfl⟩ := h
  exact .classDecl hw ht hparent hl hmethods hr

/-- Where an `else` is taken, the branch before it was not open. -/
theorem reads_ifStatement (hs : Reads statement Stated) :
    Reads (ifStatement statement) fun s n ts m rest => ∀ w, w.is .ifWord →
      Stated s n (w :: ts) m rest := by
  refine ((reads_expect .leftParen _).bind fun _ => reads_expression.bind fun condition =>
    (reads_expect .rightParen _).bind fun _ => hs.bind fun yes =>
    (Reads.ifAccept .elseWord (hs.map some) (reads_pure none)).bind fun no =>
    reads_pure (Stmt.branch condition yes no)).mono ?_
  intro s n ts m rest h w hw
  obtain ⟨-, ts₁, k₁, us₁, ⟨l, ⟨-, hl⟩, rfl, rfl⟩, h, rfl⟩ := h
  obtain ⟨e, ts₂, k₂, us₂, he, h, rfl⟩ := h
  obtain ⟨-, ts₃, k₃, us₃, ⟨r, ⟨-, hr⟩, rfl, rfl⟩, h, rfl⟩ := h
  obtain ⟨yes, ts₄, k₄, us₄, ⟨o, hyes, hopen⟩, h, rfl⟩ := h
  obtain ⟨no, ts₅, k₅, us₅, hno, ⟨rfl, rfl, rfl⟩, rfl⟩ := h
  rcases hno with ⟨q, vs, hq, ⟨no, rfl, o', hno, hopen'⟩, rfl⟩ | ⟨⟨rfl, rfl, rfl⟩, hnot⟩
  · have hclosed : o = false := by
      cases o with
      | false => rfl
      | true => exact absurd ⟨q, by simp, hq⟩ (hopen rfl)
    refine ⟨o', ?_, hopen'⟩
    simpa using Sentence.Derives.branchElse hw hl he hr hyes (fun _ => hclosed) hq hno
  · refine ⟨true, ?_, fun _ => hnot⟩
    simpa using Sentence.Derives.branch hw hl he hr hyes

/-- A `while` statement is read as the grammar has it, and it is open where its body is. -/
theorem reads_whileStatement (hs : Reads statement Stated) :
    Reads (whileStatement statement) fun s n ts m rest => ∀ w, w.is .whileWord →
      Stated s n (w :: ts) m rest := by
  refine ((reads_expect .leftParen _).bind fun _ => reads_expression.bind fun condition =>
    (reads_expect .rightParen _).bind fun _ => hs.bind fun body =>
    reads_pure (Stmt.loop condition body)).mono ?_
  intro s n ts m rest h w hw
  obtain ⟨-, ts₁, k₁, us₁, ⟨l, ⟨-, hl⟩, rfl, rfl⟩, h, rfl⟩ := h
  obtain ⟨e, ts₂, k₂, us₂, he, h, rfl⟩ := h
  obtain ⟨-, ts₃, k₃, us₃, ⟨r, ⟨-, hr⟩, rfl, rfl⟩, h, rfl⟩ := h
  obtain ⟨body, ts₄, k₄, us₄, ⟨o, hbody, hopen⟩, ⟨rfl, rfl, rfl⟩, rfl⟩ := h
  refine ⟨o, ?_, hopen⟩
  simpa using Sentence.Derives.loop hw hl he hr hbody

/-- The first clause of a `for` statement is a declaration, an expression or missing. -/
theorem reads_forInitializer : Reads forInitializer fun first n ts m _ => First first n ts m := by
  refine (Reads.ifAccept .semicolon (reads_pure none) (Reads.ifAccept .varWord
    (reads_varDeclaration.map some) ((reads_plain _ Stmt.expression).map some))).mono ?_
  intro first n ts m rest h
  rcases h with ⟨q, us, hq, ⟨rfl, rfl, rfl⟩, rfl⟩ | ⟨⟨v, us, hv, ⟨s, rfl, hs⟩, rfl⟩ |
    ⟨⟨s, rfl, e, rfl, he⟩, -⟩, -⟩
  · exact .none hq
  · exact .varDecl hv hs
  · exact .expression he

/-- A `for` statement is a loop with its first clause before it. -/
theorem forLoop_eq (first : Option Stmt) (condition increment : Option Expr) (body : Stmt) :
    forLoop first condition increment body =
      precededBy (.loop (condition.getD (.literal (.bool true))) (followedBy body increment))
        first := by
  cases first <;> cases increment <;> rfl

/-- A `for` statement is read as the grammar has it, and it is open where its body is. -/
theorem reads_forStatement (hs : Reads statement Stated) :
    Reads (forStatement statement) fun s n ts m rest => ∀ w, w.is .forWord →
      Stated s n (w :: ts) m rest := by
  refine ((reads_expect .leftParen _).bind fun _ => reads_forInitializer.bind fun first =>
    (reads_expressionUnless .semicolon).bind fun condition =>
    (reads_expect .semicolon _).bind fun _ =>
    (reads_expressionUnless .rightParen).bind fun increment =>
    (reads_expect .rightParen _).bind fun _ => hs.bind fun body =>
    reads_pure (forLoop first condition increment body)).mono ?_
  intro s n ts m rest h w hw
  obtain ⟨-, ts₁, k₁, us₁, ⟨l, ⟨-, hl⟩, rfl, rfl⟩, h, rfl⟩ := h
  obtain ⟨first, ts₂, k₂, us₂, hfirst, h, rfl⟩ := h
  obtain ⟨condition, ts₃, k₃, us₃, hcondition, h, rfl⟩ := h
  obtain ⟨-, ts₄, k₄, us₄, ⟨q, ⟨-, hq⟩, rfl, rfl⟩, h, rfl⟩ := h
  obtain ⟨increment, ts₅, k₅, us₅, hincrement, h, rfl⟩ := h
  obtain ⟨-, ts₆, k₆, us₆, ⟨r, ⟨-, hr⟩, rfl, rfl⟩, h, rfl⟩ := h
  obtain ⟨body, ts₇, k₇, us₇, ⟨o, hbody, hopen⟩, ⟨rfl, rfl, rfl⟩, rfl⟩ := h
  refine ⟨o, ?_, hopen⟩
  rw [forLoop_eq]
  simpa using Sentence.Derives.forLoop hw hl hfirst hcondition hq hincrement hr hbody

/-- A `return` statement is read as the grammar has it, with the line of its keyword. -/
theorem reads_returnStatement (line : Nat) :
    Reads (returnStatement line) fun s n ts m _ => ∀ w, w.is .returnWord → w.line = line →
      (Sentence.statement false s).Derives true n (w :: ts) m := by
  refine ((reads_expressionUnless .semicolon).bind fun value =>
    (reads_expect .semicolon _).bind fun _ => reads_pure (Stmt.result line value)).mono ?_
  intro s n ts m rest h w hw hline
  obtain ⟨value, ts₁, k₁, us₁, hvalue, ⟨-, ts₂, k₂, us₂, ⟨q, ⟨-, hq⟩, rfl, rfl⟩,
    ⟨rfl, rfl, rfl⟩, rfl⟩, rfl⟩ := h
  rw [← hline]
  exact .result hw hvalue hq

/-- A parser after the keyword that the cursor is at. -/
theorem reads_afterKeyword {α : Type} {p : Parse α}
    {R S : α → Nat → List Token → Nat → List Token → Prop} {t : Token} {s : Symbol}
    (hk : t.kind = .symbol s) (hp : Reads p R)
    (hS : ∀ a n ts m rest, t.is s → R a n ts m rest → S a n (t :: ts) m rest) :
    Reads (do advance; p) fun a n ts m rest =>
      t.kind = .finish ∨ (ts ++ rest).head? = some t → S a n ts m rest := by
  refine (reads_advance.bind fun _ => hp).mono ?_
  intro a n ts m rest h hpeeked
  obtain ⟨-, ts₁, k, ts₂, ⟨rfl, htaken⟩, hR, rfl⟩ := h
  have his : t.is s := by simp [Token.is, hk]
  have hhead : (ts₁ ++ ts₂ ++ rest).head? = some t := by
    rcases hpeeked with hfinish | hhead
    · rw [hk] at hfinish
      cases hfinish
    · exact hhead
  rcases htaken with ⟨t', rfl⟩ | ⟨rfl, hrest⟩
  · cases hhead
    exact hS _ _ _ _ _ his hR
  · rw [List.nil_append, hrest] at hhead
    cases hhead

/-- A statement is read as the grammar has it, and where it might go on with `else` none
follows. -/
theorem reads_statementWith (hd : Reads declaration Declared) (hs : Reads statement Stated) :
    Reads (statementWith declaration statement) Stated := by
  refine (reads_peek.bindStill (S := fun t s n ts m rest =>
    t.kind = .finish ∨ (ts ++ rest).head? = some t → Stated s n ts m rest) fun t => ?_).mono ?_
  · split
    · rename_i hk
      refine reads_afterKeyword hk (reads_forStatement hs) ?_
      intro s n ts m rest his h
      exact h t his
    · rename_i hk
      refine reads_afterKeyword hk (reads_ifStatement hs) ?_
      intro s n ts m rest his h
      exact h t his
    · rename_i hk
      refine reads_afterKeyword hk (reads_whileStatement hs) ?_
      intro s n ts m rest his h
      exact h t his
    · rename_i hk
      refine reads_afterKeyword hk (reads_returnStatement t.line) ?_
      intro s n ts m rest his h
      exact ⟨false, h t his rfl, by simp⟩
    · rename_i hk
      refine reads_afterKeyword hk (reads_plain _ Stmt.print) ?_
      intro s n ts m rest his h
      obtain ⟨e, rfl, he⟩ := h
      exact ⟨false, .print his he, by simp⟩
    · rename_i hk
      refine reads_afterKeyword hk ((reads_block hd).map Stmt.block) ?_
      intro s n ts m rest his h
      obtain ⟨ss, rfl, vs, r, hss, hr, rfl⟩ := h
      exact ⟨false, .block his hss hr, by simp⟩
    · refine (reads_plain _ Stmt.expression).mono ?_
      intro s n ts m rest h _
      obtain ⟨e, rfl, he⟩ := h
      exact ⟨false, .expression he, by simp⟩
  · intro s n ts m rest h
    obtain ⟨t, ht, hs⟩ := h
    exact hs ht

/-- A declaration is read as the grammar has it: by its keyword, or else as a statement. -/
theorem reads_declarationWith (hd : Reads declaration Declared) (hs : Reads statement Stated) :
    Reads (declarationWith declaration statement) fun s n ts m _ =>
      (Sentence.declaration s).Derives true n ts m := by
  refine (reads_peek.bindStill (S := fun t s n ts m rest =>
    t.kind = .finish ∨ (ts ++ rest).head? = some t →
      (Sentence.declaration s).Derives true n ts m) fun t => ?_).mono ?_
  · split
    · rename_i hk
      refine reads_afterKeyword hk (reads_classDeclaration hd) ?_
      intro s n ts m rest his h
      exact h t his
    · rename_i hk
      refine reads_afterKeyword hk ((reads_function hd _).map Stmt.funDecl) ?_
      intro s n ts m rest his h
      obtain ⟨f, rfl, hf⟩ := h
      exact .funDecl his hf
    · rename_i hk
      refine reads_afterKeyword hk reads_varDeclaration ?_
      intro s n ts m rest his h
      exact .varDecl his h
    · refine (reads_statementWith hd hs).mono ?_
      intro s n ts m rest h _
      obtain ⟨o, hs, -⟩ := h
      exact .statement hs
  · intro s n ts m rest h
    obtain ⟨t, ht, hs⟩ := h
    exact hs ht

end Statements

/-- The parsers of statements and declarations within a bound, together. -/
theorem reads_within (bound : Nat) :
    Reads (statementWithin bound) Stated ∧ Reads (declarationWithin bound) Declared := by
  induction bound with
  | zero => exact ⟨reads_fail _ _, reads_recover (reads_fail _ _)⟩
  | succ bound ih =>
    obtain ⟨hs, hd⟩ := ih
    exact ⟨reads_statementWith hd hs, reads_recover (reads_declarationWith hd hs)⟩

/-- A declaration that is not dropped is read as the grammar has it. -/
theorem reads_declaration : Reads declaration Declared := by
  refine (reads_remaining.bindStill fun count => (reads_within count).2).mono ?_
  intro o n ts m rest h
  obtain ⟨-, -, ho⟩ := h
  exact ho

/-- A program that is read without a report derives what was read, and nothing
is left if the bound on its declarations was no less than the tokens ahead. -/
theorem reads_programList (fuel : Nat) :
    Reads (programList fuel) fun ss n ts m rest =>
      (Sentence.declarations ss).Derives true n ts m ∧
        (ts.length + rest.length ≤ fuel → rest = []) := by
  induction fuel with
  | zero =>
    refine (reads_pure []).mono ?_
    intro ss n ts m rest h
    obtain ⟨rfl, rfl, rfl⟩ := h
    exact ⟨.noDeclarations, fun hlen => List.length_eq_zero_iff.1 (by omega)⟩
  | succ fuel ih =>
    rw [programList]
    refine (reads_atEnd.bindStill (S := fun b ss n ts m rest =>
      b = (ts ++ rest).isEmpty → (Sentence.declarations ss).Derives true n ts m ∧
        (ts.length + rest.length ≤ fuel + 1 → rest = [])) fun b => ?_).mono ?_
    · cases b with
      | true =>
        refine (reads_pure []).mono ?_
        intro ss n ts m rest h hend
        obtain ⟨rfl, rfl, rfl⟩ := h
        exact ⟨.noDeclarations, fun _ => by simpa using hend.symm⟩
      | false =>
        refine (reads_declaration.bind fun o => ih.bind fun more =>
          reads_pure (o.toList ++ more)).mono ?_
        intro ss n ts m rest h _
        obtain ⟨-, ts₁, k, ts₂, ⟨s, rfl, hs⟩, ⟨more, ts₃, k', ts₄, ⟨hmore, hlen⟩,
          ⟨rfl, rfl, rfl⟩, rfl⟩, rfl⟩ := h
        obtain ⟨t, us, rfl, -⟩ := hs.first
        refine ⟨by simpa using Sentence.Derives.declarations hs hmore, fun hle => ?_⟩
        apply hlen
        simp only [List.length_append, List.length_cons, List.length_nil] at hle ⊢
        omega
    · intro ss n ts m rest h
      obtain ⟨b, hb, hss⟩ := h
      exact hss hb

/-- A program is read as the grammar has it, up to the end of the input. -/
theorem reads_program :
    Reads program fun ss n ts m rest =>
      (Sentence.declarations ss).Derives true n ts m ∧ rest = [] := by
  refine (reads_remaining.bindStill fun count => reads_programList count).mono ?_
  intro ss n ts m rest h
  obtain ⟨count, rfl, hss, hrest⟩ := h
  exact ⟨hss, hrest (by simp)⟩

end Lox.Parse
