import Lox.Proofs.Grammar.Soundness

/-!
# Parsers accept what the grammar derives

The converse of soundness: where tokens derive a phrase and what follows them
cannot go on with it, the parser of the phrase takes exactly these tokens,
yields the tree of the derivation and reports nothing. The bound that a parser
is given has to be no less than the number of tokens ahead.

Operators and suffixes are read by loops, and a derivation ends where its loop
may still go on. So for these a parser is first related to its loop, started
behind the tokens of the derivation, and the loop is then shown to stop.
-/

namespace Lox.Parse

open Grammar

section Steps

variable {α β : Type} {f : Token} {n m : Nat} {errs : Array SyntaxError} {ts rest : List Token}

/-- A token that is selected is taken. -/
theorem acceptMap_cons {select : Token → Option α} {t : Token} {a : α} (h : select t = some a) :
    acceptMap select ⟨t :: rest, f, n, errs⟩ = .ok (some a) ⟨rest, f, n, errs⟩ := by
  simp only [acceptMap, modifyGet_apply, h]

/-- Where no token is selected, none is taken, also at the end of the file. -/
theorem acceptMap_none {select : Token → Option α}
    (h : ∀ t, rest.head? = some t → select t = none) :
    acceptMap select ⟨rest, f, n, errs⟩ = .ok none ⟨rest, f, n, errs⟩ := by
  cases rest with
  | nil => rfl
  | cons t rest =>
    simp only [acceptMap, modifyGet_apply, h t rfl]

/-- An expected token that is there is taken. -/
theorem expectMap_cons {select : Token → Option α} {t : Token} {a : α} (what : String)
    (h : select t = some a) :
    expectMap select what ⟨t :: rest, f, n, errs⟩ = .ok a ⟨rest, f, n, errs⟩ :=
  bind_of_ok (acceptMap_cons h)

/-- An expected symbol that is there is taken. -/
theorem expect_cons {s : Symbol} {t : Token} (what : String) (h : t.is s) :
    expect s what ⟨t :: rest, f, n, errs⟩ = .ok t ⟨rest, f, n, errs⟩ :=
  expectMap_cons what (if_pos h)

/-- An expected name that is there is taken. -/
theorem expectName_cons {t : Token} (what : String) (h : t.kind = .identifier) :
    expectName what ⟨t :: rest, f, n, errs⟩ = .ok t.asName ⟨rest, f, n, errs⟩ :=
  expectMap_cons what (by rw [nameOf?, h]; rfl)

/-- A symbol that is there is taken, and it is known which token it was. -/
theorem accept?_cons {s : Symbol} {t : Token} (h : t.is s) :
    accept? s ⟨t :: rest, f, n, errs⟩ = .ok (some t) ⟨rest, f, n, errs⟩ :=
  acceptMap_cons (if_pos h)

/-- A symbol that is not there is not taken. -/
theorem accept?_none {s : Symbol} (h : ¬StartsWith s rest) :
    accept? s ⟨rest, f, n, errs⟩ = .ok none ⟨rest, f, n, errs⟩ :=
  acceptMap_none fun t ht => if_neg fun his => h ⟨t, ht, his⟩

/-- A symbol that is there is taken. -/
theorem accept_cons {s : Symbol} {t : Token} (h : t.is s) :
    accept s ⟨t :: rest, f, n, errs⟩ = .ok true ⟨rest, f, n, errs⟩ :=
  bind_of_ok (accept?_cons h)

/-- Where a symbol is not there, nothing is taken. -/
theorem accept_false {s : Symbol} (h : ¬StartsWith s rest) :
    accept s ⟨rest, f, n, errs⟩ = .ok false ⟨rest, f, n, errs⟩ :=
  bind_of_ok (accept?_none h)

/-- An operator that is there is taken, with its line. -/
theorem acceptOperator_cons {select : Symbol → Option α} {t : Token} {s : Symbol} {a : α}
    (ht : t.kind = .symbol s) (h : select s = some a) :
    acceptOperator select ⟨t :: rest, f, n, errs⟩ = .ok (some (a, t.line)) ⟨rest, f, n, errs⟩ :=
  acceptMap_cons (by simp only [ht, h, Option.map_some])

/-- Where none of the operators is there, nothing is taken. -/
theorem acceptOperator_none {select : Symbol → Option α}
    (h : ∀ t s, rest.head? = some t → t.kind = .symbol s → select s = none) :
    acceptOperator select ⟨rest, f, n, errs⟩ = .ok none ⟨rest, f, n, errs⟩ := by
  refine acceptMap_none fun t ht => ?_
  split
  · rename_i s hs
    rw [h t s ht hs, Option.map_none]
  · rfl

/-- Of two parsers, the first one goes on behind a symbol that is there. -/
theorem ifAccept_cons {s : Symbol} {t : Token} {p q : Parse α} (h : t.is s) :
    (do if ← accept s then p else q : Parse α) ⟨t :: rest, f, n, errs⟩ =
      p ⟨rest, f, n, errs⟩ :=
  bind_of_ok (accept_cons h)

/-- Of two parsers, the second one goes on where the symbol is not there. -/
theorem ifAccept_not {s : Symbol} {p q : Parse α} (h : ¬StartsWith s rest) :
    (do if ← accept s then p else q : Parse α) ⟨rest, f, n, errs⟩ = q ⟨rest, f, n, errs⟩ :=
  bind_of_ok (accept_false h)

/-- Of two parsers, the first one goes on at a symbol that is there. -/
theorem ifCheck_cons {s : Symbol} {t : Token} {p q : Parse α} (h : t.is s) :
    (do if ← check s then p else q : Parse α) ⟨t :: rest, f, n, errs⟩ =
      p ⟨t :: rest, f, n, errs⟩ :=
  (bind_of_ok rfl).trans (by rw [Cursor.current, List.headD_cons, if_pos h])

/-- Of two parsers, the second one goes on at any other token. -/
theorem ifCheck_not {s : Symbol} {t : Token} {p q : Parse α} (h : t.is s = false) :
    (do if ← check s then p else q : Parse α) ⟨t :: rest, f, n, errs⟩ =
      q ⟨t :: rest, f, n, errs⟩ :=
  (bind_of_ok rfl).trans (by rw [Cursor.current, List.headD_cons, h, if_neg Bool.false_ne_true])

/-- Within the limit of a list nothing is reported. -/
theorem reportSurplus_lt {count : Nat} (what : String) (h : count < maxArguments) (c : Cursor) :
    reportSurplus what count c = .ok () c := by
  rw [reportSurplus, if_neg (by omega)]
  rfl

/-- A token of one kind is no token of another. -/
theorem is_eq_false {t : Token} {s s' : Symbol} (h : t.is s) (hne : s ≠ s') : t.is s' = false := by
  have hk := Token.kind_of_is h
  simpa [Token.is, hk] using hne

/-- A token with a property is no symbol without it. -/
theorem is_eq_false_of {P : Token.Kind → Bool} {t : Token} {s : Symbol} (ht : P t.kind)
    (hs : P (.symbol s) = false) : t.is s = false := by
  by_contra his
  rw [Token.kind_of_is (by simpa using his), hs] at ht
  cases ht

/-- Tokens that start with another symbol do not start with this one. -/
theorem not_startsWith_cons {t : Token} {s : Symbol} (h : t.is s = false) :
    ¬StartsWith s (t :: rest) := by
  intro hs
  obtain ⟨t', ht, his⟩ := hs
  cases ht
  rw [h] at his
  cases his

end Steps

/-- The symbols of the operators of a level. -/
def symbols (level : Level) : List Symbol := level.map Prod.fst

/-- The symbol of an operator of a level is one of the level. -/
theorem mem_symbols {level : Level} {s : Symbol} {op : Operator} (h : (s, op) ∈ level) :
    s ∈ symbols level := List.mem_map_of_mem h

/-- What follows goes on with no operand and with no operator of the levels. -/
def Stops (levels : List Level) (rest : List Token) : Prop :=
  ∀ t s, rest.head? = some t → t.kind = .symbol s →
    s ≠ .leftParen ∧ s ≠ .dot ∧ ∀ level ∈ levels, s ∉ symbols level

/-- What follows goes on with no expression. -/
structure Ends (rest : List Token) : Prop where
  /-- No operator and no suffix follows. -/
  stops : Stops precedence rest
  /-- No assignment follows. -/
  notEqual : ¬StartsWith .equal rest

/-- A token that is a symbol other than those of suffixes and of the levels. -/
theorem stops_cons {t : Token} {s : Symbol} (h : t.is s) {levels : List Level}
    (hs : s ≠ .leftParen ∧ s ≠ .dot ∧ ∀ level ∈ levels, s ∉ symbols level) (rest : List Token) :
    Stops levels (t :: rest) := by
  intro t' s' ht' hs'
  cases ht'
  rw [Token.kind_of_is h] at hs'
  cases hs'
  exact hs

/-- The symbols that end an expression do not go on with one. -/
theorem ends_cons {t : Token} {s : Symbol} (h : t.is s)
    (hs : s ∈ [Symbol.semicolon, .rightParen, .comma]) (rest : List Token) : Ends (t :: rest) := by
  have hfree : ∀ s ∈ [Symbol.semicolon, .rightParen, .comma],
      (s ≠ .leftParen ∧ s ≠ .dot ∧ ∀ level ∈ precedence, s ∉ symbols level) ∧ s ≠ .equal := by
    decide
  exact ⟨stops_cons h (hfree s hs).1 rest, not_startsWith_cons (is_eq_false h (hfree s hs).2)⟩

/-- No operator belongs to two levels, and none is a sign of a suffix. -/
structure Separate (levels : List Level) : Prop where
  /-- The levels have no operator in common. -/
  pairwise : levels.Pairwise fun a b => ∀ s ∈ symbols a, s ∉ symbols b
  /-- No operator is the sign of a suffix. -/
  noSuffix : ∀ level ∈ levels, ∀ s ∈ symbols level, s ≠ .leftParen ∧ s ≠ .dot

/-- The levels of the language are separate. -/
theorem precedence_separate : Separate precedence := ⟨by decide, by decide⟩

/-- Without their loosest one, separate levels are separate. -/
theorem Separate.tail {level : Level} {levels : List Level} (h : Separate (level :: levels)) :
    Separate levels :=
  ⟨(List.pairwise_cons.1 h.pairwise).2, fun l hl => h.noSuffix l (List.mem_cons_of_mem _ hl)⟩

/-- An operator of one level stops the tighter ones. -/
theorem Separate.stops {level : Level} {levels : List Level} (h : Separate (level :: levels))
    {t : Token} {s : Symbol} {op : Operator} (ht : t.kind = .symbol s) (hs : (s, op) ∈ level)
    (rest : List Token) : Stops levels (t :: rest) := by
  intro t' s' ht' hs'
  cases ht'
  rw [ht] at hs'
  cases hs'
  obtain ⟨hparen, hdot⟩ := h.noSuffix level List.mem_cons_self s (mem_symbols hs)
  exact ⟨hparen, hdot, fun l hl => (List.pairwise_cons.1 h.pairwise).1 l hl s (mem_symbols hs)⟩

/-- What stops some levels stops fewer. -/
theorem Stops.mono {levels levels' : List Level} {rest : List Token} (h : Stops levels rest)
    (hsub : ∀ level ∈ levels', level ∈ levels) : Stops levels' rest := by
  intro t s ht hs
  obtain ⟨hparen, hdot, hlevels⟩ := h t s ht hs
  exact ⟨hparen, hdot, fun level hl => hlevels level (hsub level hl)⟩

/-- What stops some levels stops those that are tighter than the first. -/
theorem Stops.tail {level : Level} {levels : List Level} {rest : List Token}
    (h : Stops (level :: levels) rest) : Stops levels rest :=
  h.mono fun _ => List.mem_cons_of_mem _

/-- What stops any levels is no suffix. -/
theorem Stops.notStartsWith {levels : List Level} {rest : List Token} (h : Stops levels rest) :
    ¬StartsWith .leftParen rest ∧ ¬StartsWith .dot rest := by
  constructor
  · intro hs
    obtain ⟨t, ht, his⟩ := hs
    exact (h t _ ht (Token.kind_of_is his)).1 rfl
  · intro hs
    obtain ⟨t, ht, his⟩ := hs
    exact (h t _ ht (Token.kind_of_is his)).2.1 rfl

/-- What the parser of a phrase does at tokens that derive it. The parsers of
calls and of operators are at a loop behind these tokens, with the tree as what
the loop has so far. -/
def Accepts : Phrase → Nat → List Token → Nat → Prop
  | .primary e, n, ts, m => ∀ bound rest f errs, (ts ++ rest).length ≤ bound + 1 →
      primary (expressionWithin bound) ⟨ts ++ rest, f, n, errs⟩ = .ok e ⟨rest, f, m, errs⟩
  | .call e, n, ts, m => ∀ bound rest f errs, (ts ++ rest).length ≤ bound + 1 →
      ∃ fuel, rest.length ≤ fuel ∧
        call (bound + 1) (expressionWithin bound) ⟨ts ++ rest, f, n, errs⟩ =
          suffixes (bound + 1) (expressionWithin bound) fuel e ⟨rest, f, m, errs⟩
  | .unary e, n, ts, m => ∀ bound fuel rest f errs, (ts ++ rest).length ≤ bound + 1 →
      (ts ++ rest).length ≤ fuel → Stops [] rest →
      unary (call (bound + 1) (expressionWithin bound)) fuel ⟨ts ++ rest, f, n, errs⟩ =
        .ok e ⟨rest, f, m, errs⟩
  | .operation levels e, n, ts, m => ∀ bound operators rest f errs,
      List.Forall₂ Knows operators levels → Separate levels →
      (ts ++ rest).length ≤ bound + 1 → Stops levels.tail rest →
      match operators with
      | [] => operationOf (bound + 1) (expressionWithin bound) [] ⟨ts ++ rest, f, n, errs⟩ =
          .ok e ⟨rest, f, m, errs⟩
      | operator :: operators => ∃ fuel, rest.length ≤ fuel ∧
          operationOf (bound + 1) (expressionWithin bound) (operator :: operators)
            ⟨ts ++ rest, f, n, errs⟩ =
          joinLeft operator (operationOf (bound + 1) (expressionWithin bound) operators) fuel e
            ⟨rest, f, m, errs⟩
  | .expression e, n, ts, m => ∀ bound rest f errs, (ts ++ rest).length ≤ bound → Ends rest →
      expressionWithin bound ⟨ts ++ rest, f, n, errs⟩ = .ok e ⟨rest, f, m, errs⟩
  | .list es, n, ts, m => ∀ bound fuel count r rest f errs, r.is .rightParen →
      (ts ++ r :: rest).length ≤ bound → (ts ++ r :: rest).length ≤ fuel →
      count + es.length ≤ maxArguments →
      argumentList (expressionWithin bound) fuel count ⟨ts ++ r :: rest, f, n, errs⟩ =
        .ok es ⟨r :: rest, f, m, errs⟩
  | .arguments es, n, ts, m => ∀ bound r rest f errs, r.is .rightParen →
      (ts ++ r :: rest).length ≤ bound → es.length ≤ maxArguments →
      argumentValues (bound + 1) (expressionWithin bound) ⟨ts ++ r :: rest, f, n, errs⟩ =
        .ok es ⟨r :: rest, f, m, errs⟩

section Expressions

variable {e a b object : Expr} {es : List Expr} {ts us rest : List Token} {n m k bound : Nat}
  {f l r c d t q s : Token} {errs : Array SyntaxError}

/-- A literal is one token. -/
theorem accepts_literal {v : Literal} (h : literal? t.kind = some v) :
    Accepts (.primary (.literal v)) n [t] n := by
  intro bound rest f errs _
  have hp : primary? t = some (.literal v) := by
    unfold literal? at h
    unfold primary?
    split at h <;> simp_all
  exact bind_of_ok (expectMap_cons _ hp)

/-- A variable is one token, and it is given the next identity. -/
theorem accepts_name (h : t.kind = .identifier) :
    Accepts (.primary (.var ⟨n, t.asName⟩)) n [t] (n + 1) := by
  intro bound rest f errs _
  have hp : primary? t = some (.name t.asName) := by rw [primary?, h]; rfl
  exact bind_of_ok (expectMap_cons _ hp)

/-- A `this` is one token, and it is given the next identity. -/
theorem accepts_this (h : t.is .thisWord) :
    Accepts (.primary (.this n t.line)) n [t] (n + 1) := by
  intro bound rest f errs _
  have hp : primary? t = some (.this t.line) := by rw [primary?, Token.kind_of_is h]
  exact bind_of_ok (expectMap_cons _ hp)

/-- A `super` has a point and the name of a method behind it, and it is given the next
identity. -/
theorem accepts_super (hs : s.is .superWord) (hd : d.is .dot) (ht : t.kind = .identifier) :
    Accepts (.primary (.super n s.line t.asName)) n [s, d, t] (n + 1) := by
  intro bound rest f errs _
  have hp : primary? s = some (.super s.line) := by rw [primary?, Token.kind_of_is hs]
  refine (bind_of_ok (expectMap_cons _ hp)).trans ?_
  refine (bind_of_ok (expect_cons _ hd)).trans ?_
  exact bind_of_ok (expectName_cons _ ht)

/-- Parentheses are taken with the expression between them. -/
theorem accepts_group (hl : l.is .leftParen) (he : Accepts (.expression e) n ts m)
    (hr : r.is .rightParen) : Accepts (.primary (.group e)) n (l :: (ts ++ [r])) m := by
  intro bound rest f errs hlen
  have hp : primary? l = some .group := by rw [primary?, Token.kind_of_is hl]
  have hinner : expressionWithin bound ⟨ts ++ r :: rest, f, n, errs⟩ =
      .ok e ⟨r :: rest, f, m, errs⟩ := by
    refine he bound (r :: rest) f errs ?_ (ends_cons hr (by simp) rest)
    simp only [List.length_append, List.length_cons, List.length_nil] at hlen ⊢
    omega
  rw [List.cons_append, List.append_assoc, List.singleton_append]
  refine (bind_of_ok (expectMap_cons _ hp)).trans ?_
  refine (bind_of_ok hinner).trans ?_
  exact bind_of_ok (expect_cons _ hr)

/-- A primary expression is a call without suffixes. -/
theorem accepts_primary (h : Accepts (.primary e) n ts m) : Accepts (.call e) n ts m := by
  intro bound rest f errs hlen
  refine ⟨bound + 1, ?_, bind_of_ok (h bound rest f errs hlen)⟩
  rw [List.length_append] at hlen
  omega

/-- A property is a suffix of a point and a name, with which the loop of suffixes goes on. -/
theorem accepts_property (he : Accepts (.call e) n ts m) (hd : d.is .dot)
    (ht : t.kind = .identifier) : Accepts (.call (.get e t.asName)) n (ts ++ [d, t]) m := by
  intro bound rest f errs hlen
  rw [List.append_assoc] at hlen ⊢
  obtain ⟨fuel, hfuel, heq⟩ := he bound ([d, t] ++ rest) f errs hlen
  simp only [List.cons_append, List.nil_append, List.length_cons] at hfuel heq ⊢
  obtain ⟨fuel, rfl⟩ : ∃ fuel', fuel = fuel' + 1 := ⟨fuel - 1, by omega⟩
  refine ⟨fuel, by omega, heq.trans ?_⟩
  rw [suffixes]
  refine (ifAccept_not (not_startsWith_cons (is_eq_false hd (by decide)))).trans ?_
  refine (ifAccept_cons hd).trans ?_
  exact bind_of_ok (expectName_cons _ ht)

/-- Arguments in parentheses are a suffix with which the loop of suffixes goes on. -/
theorem accepts_invocation (he : Accepts (.call e) n ts m) (hl : l.is .leftParen)
    (hes : Accepts (.arguments es) m us k) (hmax : es.length ≤ maxArguments)
    (hr : r.is .rightParen) : Accepts (.call (.call e es r.line)) n (ts ++ l :: (us ++ [r])) k := by
  intro bound rest f errs hlen
  rw [List.append_assoc, List.cons_append, List.append_assoc, List.singleton_append] at hlen ⊢
  obtain ⟨fuel, hfuel, heq⟩ := he bound (l :: (us ++ r :: rest)) f errs hlen
  simp only [List.length_append, List.length_cons] at hlen hfuel
  obtain ⟨fuel, rfl⟩ : ∃ fuel', fuel = fuel' + 1 := ⟨fuel - 1, by omega⟩
  have hshort : (us ++ r :: rest).length ≤ bound := by
    simp only [List.length_append, List.length_cons]
    omega
  have hvalues := hes bound r rest f errs hr hshort hmax
  have harguments : arguments (bound + 1) (expressionWithin bound) ⟨us ++ r :: rest, f, m, errs⟩ =
      .ok (es, r.line) ⟨rest, f, k, errs⟩ :=
    (bind_of_ok hvalues).trans (bind_of_ok (expect_cons _ hr))
  refine ⟨fuel, by omega, heq.trans ?_⟩
  rw [suffixes]
  exact (ifAccept_cons hl).trans (bind_of_ok harguments)

/-- Where what follows is no suffix, the loop of suffixes ends. -/
theorem suffixes_stop {levels : List Level} (h : Stops levels rest) (expression : Parse Expr)
    (bound fuel : Nat) (object : Expr) :
    suffixes bound expression fuel object ⟨rest, f, n, errs⟩ = .ok object ⟨rest, f, n, errs⟩ := by
  cases fuel with
  | zero => rfl
  | succ fuel =>
    rw [suffixes]
    exact (ifAccept_not h.notStartsWith.1).trans (ifAccept_not h.notStartsWith.2)

/-- At the closing parenthesis there are no arguments. -/
theorem accepts_noArguments : Accepts (.arguments []) n [] n := by
  intro bound r rest f errs hr _ _
  exact ifCheck_cons hr

/-- The first argument tells a list of arguments from the parenthesis behind it. -/
theorem accepts_someArguments (hd : (Phrase.list es).Derives n ts m)
    (h : Accepts (.list es) n ts m) : Accepts (.arguments es) n ts m := by
  intro bound r rest f errs hr hlen hmax
  have hlist := h bound (bound + 1 + 1) 0 r rest f errs hr hlen (by omega) (by omega)
  obtain ⟨t, us, rfl, ht⟩ : ∃ t us, ts = t :: us ∧ startsExpression t.kind := by
    rcases hd.first with ⟨hp, -⟩ | hfirst
    · cases hp
    · exact hfirst
  exact (ifCheck_not (is_eq_false_of ht rfl)).trans hlist

/-- A last argument has no comma behind it. -/
theorem accepts_last (h : Accepts (.expression e) n ts m) : Accepts (.list [e]) n ts m := by
  intro bound fuel count r rest f errs hr hlen hfuel hmax
  rw [List.length_singleton] at hmax
  obtain ⟨fuel, rfl⟩ : ∃ fuel', fuel = fuel' + 1 := by
    rw [List.length_append, List.length_cons] at hfuel
    exact ⟨fuel - 1, by omega⟩
  rw [argumentList]
  refine (bind_of_ok (reportSurplus_lt _ (by omega) _)).trans ?_
  refine (bind_of_ok (h bound _ f errs hlen (ends_cons hr (by simp) rest))).trans ?_
  exact ifAccept_not (not_startsWith_cons (is_eq_false hr (by decide)))

/-- A comma has more arguments behind it. -/
theorem accepts_more (he : Accepts (.expression e) n ts m) (hc : c.is .comma)
    (hes : Accepts (.list es) m us k) : Accepts (.list (e :: es)) n (ts ++ c :: us) k := by
  intro bound fuel count r rest f errs hr hlen hfuel hmax
  rw [List.append_assoc, List.cons_append] at hlen hfuel ⊢
  rw [List.length_cons] at hmax
  have hfirst := he bound (c :: (us ++ r :: rest)) f errs hlen (ends_cons hc (by simp) _)
  rw [List.length_append, List.length_cons] at hlen hfuel
  obtain ⟨fuel, rfl⟩ : ∃ fuel', fuel = fuel' + 1 := ⟨fuel - 1, by omega⟩
  have hmore := hes bound fuel (count + 1) r rest f errs hr (by omega) (by omega) (by omega)
  rw [argumentList]
  refine (bind_of_ok (reportSurplus_lt _ (by omega) _)).trans ?_
  refine (bind_of_ok hfirst).trans ?_
  exact (ifAccept_cons hc).trans (bind_of_ok hmore)

/-- A call starts with no operator. -/
theorem unaryOperator_first (h : (Phrase.call e).Derives n ts m) :
    ∃ t us, ts = t :: us ∧ ∀ s, t.kind = .symbol s → unaryOperator s = none := by
  generalize hp : Phrase.call e = p at h
  induction h generalizing e with
  | primary h =>
    have hnone : ∀ t : Token, ∀ s, t.is s → unaryOperator s = none →
        ∀ s', t.kind = .symbol s' → unaryOperator s' = none := by
      intro t s his hs s' hs'
      rw [Token.kind_of_is his] at hs'
      cases hs'
      exact hs
    cases h with
    | literal hv =>
      refine ⟨_, _, rfl, fun s hs => ?_⟩
      rw [hs] at hv
      cases s <;> first | rfl | cases hv
    | name hk => exact ⟨_, _, rfl, fun s hs => by rw [hk] at hs; cases hs⟩
    | this hk => exact ⟨_, _, rfl, hnone _ _ hk rfl⟩
    | super hk => exact ⟨_, _, rfl, hnone _ _ hk rfl⟩
    | group hk => exact ⟨_, _, rfl, hnone _ _ hk rfl⟩
  | property _ _ _ ih =>
    obtain ⟨t, us, rfl, ht⟩ := ih rfl
    exact ⟨t, _, rfl, ht⟩
  | invocation _ _ _ _ _ ih =>
    obtain ⟨t, us, rfl, ht⟩ := ih rfl
    exact ⟨t, _, rfl, ht⟩
  | _ => cases hp

/-- What starts with no operator is read as a call. -/
theorem accepts_operand (hd : (Phrase.call e).Derives n ts m) (h : Accepts (.call e) n ts m) :
    Accepts (.unary e) n ts m := by
  intro bound fuel rest f errs hlen hfuel hstops
  obtain ⟨fuel', -, heq⟩ := h bound rest f errs hlen
  have hcall := heq.trans (suffixes_stop hstops _ _ _ _)
  obtain ⟨t, us, rfl, ht⟩ := unaryOperator_first hd
  cases fuel with
  | zero => exact hcall
  | succ fuel =>
    rw [unary]
    refine (bind_of_ok (acceptOperator_none fun t' s ht' hs => ?_)).trans hcall
    cases ht'
    exact ht s hs

/-- A unary operator is taken with its operand. -/
theorem accepts_applied {s : Symbol} {op : UnaryOp} (ht : t.kind = .symbol s)
    (hs : (s, op) ∈ unaryOperators) (he : Accepts (.unary e) n ts m) :
    Accepts (.unary (.unary op t.line e)) n (t :: ts) m := by
  intro bound fuel rest f errs hlen hfuel hstops
  rw [List.cons_append, List.length_cons] at hlen hfuel
  obtain ⟨fuel, rfl⟩ : ∃ fuel', fuel = fuel' + 1 := ⟨fuel - 1, by omega⟩
  rw [unary, List.cons_append]
  refine (bind_of_ok (acceptOperator_cons ht ((unaryOperator_knows s op).2 hs))).trans ?_
  exact bind_of_ok (he bound fuel rest f errs (by omega) (by omega) hstops)

/-- Behind the tightest operators there is a unary expression. -/
theorem accepts_tightest (h : Accepts (.unary e) n ts m) : Accepts (.operation [] e) n ts m := by
  intro bound operators rest f errs hk _ hlen hstops
  cases hk
  exact h bound (bound + 1) rest f errs hlen hlen hstops

/-- Where what follows is no operator of the level, the loop of the level ends. -/
theorem joinLeft_stop {operator : Symbol → Option Joiner} {level : Level} {levels : List Level}
    (hk : Knows operator level) (h : Stops (level :: levels) rest) (operand : Parse Expr)
    (fuel : Nat) (left : Expr) :
    joinLeft operator operand fuel left ⟨rest, f, n, errs⟩ = .ok left ⟨rest, f, n, errs⟩ := by
  cases fuel with
  | zero => rfl
  | succ fuel =>
    rw [joinLeft]
    refine bind_of_ok (acceptOperator_none fun t s ht hs => ?_)
    cases hop : operator s with
    | none => rfl
    | some join =>
      obtain ⟨op, hmem, -⟩ := (hk s join).1 hop
      exact absurd (mem_symbols hmem) ((h t s ht hs).2.2 level List.mem_cons_self)

/-- Where what follows is no operator of the levels, the operation ends. -/
theorem Accepts.operation_ok {levels : List Level} (h : Accepts (.operation levels e) n ts m)
    {operators : List (Symbol → Option Joiner)} (hk : List.Forall₂ Knows operators levels)
    (hsep : Separate levels) (hlen : (ts ++ rest).length ≤ bound + 1)
    (hstops : Stops levels rest) :
    operationOf (bound + 1) (expressionWithin bound) operators ⟨ts ++ rest, f, n, errs⟩ =
      .ok e ⟨rest, f, m, errs⟩ := by
  cases hk with
  | nil => exact h bound [] rest f errs .nil hsep hlen hstops
  | cons hop hops =>
    obtain ⟨fuel, -, heq⟩ := h bound _ rest f errs (.cons hop hops) hsep hlen hstops.tail
    exact heq.trans (joinLeft_stop hop hstops _ _ _)

/-- An operand of a level is where the loop of the level starts. -/
theorem accepts_tighter {level : Level} {levels : List Level}
    (h : Accepts (.operation levels e) n ts m) :
    Accepts (.operation (level :: levels) e) n ts m := by
  intro bound operators rest f errs hk hsep hlen hstops
  cases hk with
  | cons hop hops =>
    refine ⟨bound + 1, ?_, bind_of_ok (h.operation_ok hops hsep.tail hlen hstops)⟩
    rw [List.length_append] at hlen
    omega

/-- An operator of a level and its right operand are taken by one more round of the loop. -/
theorem accepts_joined {s : Symbol} {op : Operator} {level : Level} {levels : List Level}
    (ha : Accepts (.operation (level :: levels) a) n ts m) (ht : t.kind = .symbol s)
    (hs : (s, op) ∈ level) (hb : Accepts (.operation levels b) m us k) :
    Accepts (.operation (level :: levels) (op.tree t.line a b)) n (ts ++ t :: us) k := by
  intro bound operators rest f errs hk hsep hlen hstops
  cases hk with
  | @cons operator _ operators _ hop hops =>
    rw [List.append_assoc, List.cons_append] at hlen ⊢
    obtain ⟨fuel, hfuel, heq⟩ := ha bound _ (t :: (us ++ rest)) f errs (.cons hop hops) hsep hlen
      (hsep.stops ht hs _)
    simp only [List.length_append, List.length_cons] at hlen hfuel
    obtain ⟨fuel, rfl⟩ : ∃ fuel', fuel = fuel' + 1 := ⟨fuel - 1, by omega⟩
    have hright : operationOf (bound + 1) (expressionWithin bound) operators
        ⟨us ++ rest, f, m, errs⟩ = .ok b ⟨rest, f, k, errs⟩ := by
      refine hb.operation_ok hops hsep.tail ?_ hstops
      rw [List.length_append]
      omega
    refine ⟨fuel, by omega, heq.trans ?_⟩
    rw [joinLeft]
    refine (bind_of_ok (acceptOperator_cons ht ((hop s _).2 ⟨op, hs, rfl⟩))).trans ?_
    exact bind_of_ok hright

/-- A call is an operand of any levels. -/
theorem accepts_operation_of_call (hd : (Phrase.call e).Derives n ts m)
    (h : Accepts (.call e) n ts m) (levels : List Level) :
    Accepts (.operation levels e) n ts m := by
  induction levels with
  | nil => exact accepts_tightest (accepts_operand hd h)
  | cons level levels ih => exact accepts_tighter ih

/-- An assignment starts as an operation that its equals sign ends. -/
theorem Accepts.target_ok (h : Accepts (.operation precedence e) n ts m) (hq : q.is .equal)
    (hlen : (ts ++ q :: rest).length ≤ bound + 1) :
    operation (bound + 1) (expressionWithin bound) ⟨ts ++ q :: rest, f, n, errs⟩ =
      .ok e ⟨q :: rest, f, m, errs⟩ :=
  h.operation_ok levelOperators_know precedence_separate hlen (stops_cons hq (by decide) rest)

/-- An operation that no equals sign follows is an expression. -/
theorem accepts_operation (hd : (Phrase.operation precedence e).Derives n ts m)
    (h : Accepts (.operation precedence e) n ts m) : Accepts (.expression e) n ts m := by
  intro bound rest f errs hlen hends
  obtain ⟨bound, rfl⟩ : ∃ bound', bound = bound' + 1 := by
    obtain ⟨t, us, rfl, -⟩ := (Phrase.Derives.operation hd).first_expression
    rw [List.cons_append, List.length_cons] at hlen
    exact ⟨bound - 1, by omega⟩
  have htarget : operation (bound + 1) (expressionWithin bound) ⟨ts ++ rest, f, n, errs⟩ =
      .ok e ⟨rest, f, m, errs⟩ :=
    h.operation_ok levelOperators_know precedence_separate hlen hends.stops
  rw [expressionWithin]
  exact (bind_of_ok htarget).trans (bind_of_ok (accept?_none hends.notEqual))

/-- A name before an equals sign is assigned to. Its identity is that after the value. -/
theorem accepts_assign (ht : t.kind = .identifier) (hq : q.is .equal)
    (he : Accepts (.expression e) (n + 1) ts m) :
    Accepts (.expression (.assign ⟨m, t.asName⟩ e)) n (t :: q :: ts) (m + 1) := by
  intro bound rest f errs hlen hends
  have hcall : (Phrase.call (.var ⟨n, t.asName⟩)).Derives n [t] (n + 1) := .primary (.name ht)
  have hvar := accepts_operation_of_call hcall (accepts_primary (accepts_name ht)) precedence
  simp only [List.cons_append, List.length_cons] at hlen ⊢
  obtain ⟨bound, rfl⟩ : ∃ bound', bound = bound' + 1 := ⟨bound - 1, by omega⟩
  have htarget :
      operation (bound + 1) (expressionWithin bound) ⟨t :: q :: (ts ++ rest), f, n, errs⟩ =
      .ok (.var ⟨n, t.asName⟩) ⟨q :: (ts ++ rest), f, n + 1, errs⟩ := by
    refine hvar.target_ok hq ?_
    simp only [List.cons_append, List.nil_append, List.length_cons]
    omega
  rw [expressionWithin]
  refine (bind_of_ok htarget).trans ?_
  refine (bind_of_ok (accept?_cons hq)).trans ?_
  exact bind_of_ok (he bound rest f errs (by omega) hends)

/-- A property before an equals sign is set. -/
theorem accepts_set (hd : d.is .dot) (ht : t.kind = .identifier) (hq : q.is .equal)
    (hod : (Phrase.call object).Derives n ts m) (ho : Accepts (.call object) n ts m)
    (he : Accepts (.expression e) m us k) :
    Accepts (.expression (.set object t.asName e)) n (ts ++ d :: t :: q :: us) k := by
  intro bound rest f errs hlen hends
  have hget := accepts_operation_of_call (.property hod hd ht) (accepts_property ho hd ht)
    precedence
  have hsplit : ts ++ d :: t :: q :: us ++ rest = ts ++ [d, t] ++ q :: (us ++ rest) := by simp
  rw [hsplit] at hlen ⊢
  simp only [List.length_append, List.length_cons, List.length_nil] at hlen
  obtain ⟨bound, rfl⟩ : ∃ bound', bound = bound' + 1 := ⟨bound - 1, by omega⟩
  have htarget : operation (bound + 1) (expressionWithin bound)
      ⟨ts ++ [d, t] ++ q :: (us ++ rest), f, n, errs⟩ =
      .ok (.get object t.asName) ⟨q :: (us ++ rest), f, m, errs⟩ := by
    refine hget.target_ok hq ?_
    simp only [List.length_append, List.length_cons, List.length_nil]
    omega
  rw [expressionWithin]
  refine (bind_of_ok htarget).trans ?_
  refine (bind_of_ok (accept?_cons hq)).trans ?_
  exact bind_of_ok (he bound rest f errs (by rw [List.length_append]; omega) hends)

end Expressions

/-- The parser of a phrase takes the tokens that derive it. -/
theorem accepts_of_derives {p : Phrase} {n m : Nat} {ts : List Token} (h : p.Derives n ts m) :
    Accepts p n ts m := by
  induction h with
  | literal h => exact accepts_literal h
  | name h => exact accepts_name h
  | this h => exact accepts_this h
  | super hs hd ht => exact accepts_super hs hd ht
  | group hl _ hr ih => exact accepts_group hl ih hr
  | primary _ ih => exact accepts_primary ih
  | property _ hd ht ih => exact accepts_property ih hd ht
  | invocation _ hl _ hmax hr ihe ihes => exact accepts_invocation ihe hl ihes hmax hr
  | noArguments => exact accepts_noArguments
  | someArguments h ih => exact accepts_someArguments h ih
  | last _ ih => exact accepts_last ih
  | more _ hc _ ihe ihes => exact accepts_more ihe hc ihes
  | operand h ih => exact accepts_operand h ih
  | applied ht hs _ ih => exact accepts_applied ht hs ih
  | tightest _ ih => exact accepts_tightest ih
  | tighter _ ih => exact accepts_tighter ih
  | joined _ ht hs _ iha ihb => exact accepts_joined iha ht hs ihb
  | operation h ih => exact accepts_operation h ih
  | assign ht hq _ ih => exact accepts_assign ht hq ih
  | set ho hd ht hq _ iho ihe => exact accepts_set hd ht hq ho iho ihe

/-- Tokens that derive an expression are read as its tree, if what follows does not go on
with it. -/
theorem expression_ok {e : Expr} {n m : Nat} {ts rest : List Token} {f : Token}
    {errs : Array SyntaxError} (h : (Phrase.expression e).Derives n ts m) (hends : Ends rest) :
    expression ⟨ts ++ rest, f, n, errs⟩ = .ok e ⟨rest, f, m, errs⟩ :=
  (bind_of_ok rfl).trans (accepts_of_derives h _ rest f errs (Nat.le_refl _) hends)

/-- What the parser of a sentence does at tokens that derive it. Lists end before
a closing brace. -/
def AcceptsSentence : Sentence → Nat → List Token → Nat → Prop
  | .declaration s, n, ts, m => ∀ bound rest f errs, (ts ++ rest).length ≤ bound →
      ¬StartsWith .elseWord rest →
      declarationWithin bound ⟨ts ++ rest, f, n, errs⟩ = .ok (some s) ⟨rest, f, m, errs⟩
  | .declarations ss, n, ts, m => ∀ bound fuel r rest f errs, r.is .rightBrace →
      (ts ++ r :: rest).length ≤ bound → ts.length ≤ fuel →
      declarationList (declarationWithin bound) fuel ⟨ts ++ r :: rest, f, n, errs⟩ =
        .ok ss ⟨r :: rest, f, m, errs⟩
  | .statement o s, n, ts, m => ∀ bound rest f errs, (ts ++ rest).length ≤ bound →
      (o = true → ¬StartsWith .elseWord rest) →
      statementWithin bound ⟨ts ++ rest, f, n, errs⟩ = .ok s ⟨rest, f, m, errs⟩
  | .function fn, n, ts, m => ∀ bound kind rest f errs, (ts ++ rest).length ≤ bound →
      function (declarationWithin bound) kind ⟨ts ++ rest, f, n, errs⟩ =
        .ok fn ⟨rest, f, m, errs⟩
  | .functions fs, n, ts, m => ∀ bound fuel r rest f errs, r.is .rightBrace →
      (ts ++ r :: rest).length ≤ bound → ts.length ≤ fuel →
      methodList (declarationWithin bound) fuel ⟨ts ++ r :: rest, f, n, errs⟩ =
        .ok fs ⟨r :: rest, f, m, errs⟩

section Dispatch

variable {declaration : Parse (Option Stmt)} {statement : Parse Stmt} {t w f : Token}
  {rest : List Token} {n : Nat} {errs : Array SyntaxError}

/-- What is read without error needs no recovery. -/
theorem recover_ok {α : Type} {p : Parse α} {c after : Cursor} {a : α} (h : p c = .ok a after) :
    recover p c = .ok (some a) after := by
  rw [recover, h]

/-- What the first token says about the rest of a statement. -/
theorem statementWith_cons :
    statementWith declaration statement ⟨t :: rest, f, n, errs⟩ =
      match t.kind with
      | .symbol .forWord => forStatement statement ⟨rest, f, n, errs⟩
      | .symbol .ifWord => ifStatement statement ⟨rest, f, n, errs⟩
      | .symbol .whileWord => whileStatement statement ⟨rest, f, n, errs⟩
      | .symbol .returnWord => returnStatement t.line ⟨rest, f, n, errs⟩
      | .symbol .printWord => printStatement ⟨rest, f, n, errs⟩
      | .symbol .leftBrace => (Stmt.block <$> block declaration) ⟨rest, f, n, errs⟩
      | _ => expressionStatement ⟨t :: rest, f, n, errs⟩ := by
  obtain ⟨kind, lexeme, line⟩ := t
  cases kind with
  | symbol s => cases s <;> rfl
  | _ => rfl

/-- What the first token says about the rest of a declaration. -/
theorem declarationWith_cons :
    declarationWith declaration statement ⟨t :: rest, f, n, errs⟩ =
      match t.kind with
      | .symbol .classWord => classDeclaration declaration ⟨rest, f, n, errs⟩
      | .symbol .funWord => (Stmt.funDecl <$> function declaration "function") ⟨rest, f, n, errs⟩
      | .symbol .varWord => varDeclaration ⟨rest, f, n, errs⟩
      | _ => statementWith declaration statement ⟨t :: rest, f, n, errs⟩ := by
  obtain ⟨kind, lexeme, line⟩ := t
  cases kind with
  | symbol s => cases s <;> rfl
  | _ => rfl

/-- A token that starts an expression starts an expression statement. -/
theorem statementWith_expression (h : startsExpression t.kind) :
    statementWith declaration statement ⟨t :: rest, f, n, errs⟩ =
      expressionStatement ⟨t :: rest, f, n, errs⟩ := by
  rw [statementWith_cons]
  split <;> first
    | rfl
    | rename_i hk
      rw [hk] at h
      exact absurd h (by decide)

/-- A token that opens a statement opens no other declaration. -/
theorem declarationWith_statement (h : opensStatement t.kind) :
    declarationWith declaration statement ⟨t :: rest, f, n, errs⟩ =
      statementWith declaration statement ⟨t :: rest, f, n, errs⟩ := by
  rw [declarationWith_cons]
  split <;> first
    | rfl
    | rename_i hk
      rw [hk] at h
      exact absurd h (by decide)

end Dispatch

section Statements

variable {e : Expr} {s yes no body : Stmt} {ss : List Stmt} {value : Option Expr}
  {fn : FunDecl} {fs : List FunDecl} {ts us vs ws rest : List Token} {n m k j i : Nat}
  {f l r q t w b c v : Token} {errs : Array SyntaxError}

/-- A tree that is read is wrapped without taking more. -/
theorem map_ok {α β : Type} {g : α → β} {p : Parse α} {c after : Cursor} {a : α}
    (h : p c = .ok a after) : (g <$> p) c = .ok (g a) after := by
  change EStateM.map g p c = _
  rw [EStateM.map, h]

/-- An initializer is read up to the semicolon, if there is one. -/
theorem initialValue_ok (h : Initial value n ts m) (hq : q.is .semicolon) :
    initialValue ⟨ts ++ q :: rest, f, n, errs⟩ = .ok value ⟨q :: rest, f, m, errs⟩ := by
  cases h with
  | none => exact ifAccept_not (not_startsWith_cons (is_eq_false hq (by decide)))
  | some hequal he =>
    refine (ifAccept_cons hequal).trans (map_ok ?_)
    exact expression_ok he (ends_cons hq (by simp) rest)

/-- A declaration of a variable is read behind its first word. -/
theorem varDeclaration_ok (h : Variable s n ts m) :
    varDeclaration ⟨ts ++ rest, f, n, errs⟩ = .ok s ⟨rest, f, m, errs⟩ := by
  cases h with
  | mk ht hvalue hq =>
    rw [List.cons_append, List.append_assoc, List.singleton_append]
    refine (bind_of_ok (expectName_cons _ ht)).trans ?_
    refine (bind_of_ok (initialValue_ok hvalue hq)).trans ?_
    exact bind_of_ok (expect_cons _ hq)

/-- An expression is read with the semicolon behind it. -/
theorem plain_ok {α : Type} (h : Plain e n ts m) (what : String) (g : Expr → α) :
    (do let e ← expression; let _ ← expect .semicolon what; return g e : Parse α)
      ⟨ts ++ rest, f, n, errs⟩ = .ok (g e) ⟨rest, f, m, errs⟩ := by
  cases h with
  | mk he hq =>
    rw [List.append_assoc, List.singleton_append]
    refine (bind_of_ok (expression_ok he (ends_cons hq (by simp) rest))).trans ?_
    exact bind_of_ok (expect_cons _ hq)

/-- The symbols that end a clause tell a missing expression from one that is
there. -/
theorem expressionUnless_ok {symbol : Symbol} (h : Optional value n ts m) (hq : q.is symbol)
    (hs : symbol ∈ [Symbol.semicolon, .rightParen, .comma]) :
    expressionUnless symbol ⟨ts ++ q :: rest, f, n, errs⟩ = .ok value ⟨q :: rest, f, m, errs⟩ := by
  cases h with
  | none => exact ifCheck_cons hq
  | @some e _ _ _ he =>
    have hexpression : (some <$> expression) ⟨ts ++ q :: rest, f, n, errs⟩ =
        .ok (some e) ⟨q :: rest, f, m, errs⟩ :=
      map_ok (expression_ok he (ends_cons hq hs rest))
    obtain ⟨t, us, rfl, ht⟩ := he.first_expression
    have hno : ∀ symbol ∈ [Symbol.semicolon, .rightParen, .comma],
        startsExpression (.symbol symbol) = false := by decide
    exact (ifCheck_not (is_eq_false_of ht (hno symbol hs))).trans hexpression

/-- Parameters are read up to the closing parenthesis, as long as they are not too many. -/
theorem parameterList_ok {names : List Name} (h : Parameters names ts) (hr : r.is .rightParen)
    (fuel count : Nat) (hfuel : ts.length ≤ fuel) (hmax : count + names.length ≤ maxArguments) :
    parameterList fuel count ⟨ts ++ r :: rest, f, n, errs⟩ = .ok names ⟨r :: rest, f, n, errs⟩ := by
  induction h generalizing fuel count with
  | last ht =>
    rw [List.length_singleton] at hfuel hmax
    obtain ⟨fuel, rfl⟩ : ∃ fuel', fuel = fuel' + 1 := ⟨fuel - 1, by omega⟩
    rw [parameterList]
    refine (bind_of_ok (reportSurplus_lt _ (by omega) _)).trans ?_
    refine (bind_of_ok (expectName_cons _ ht)).trans ?_
    exact ifAccept_not (not_startsWith_cons (is_eq_false hr (by decide)))
  | more ht hc _ ih =>
    simp only [List.length_cons] at hfuel hmax
    obtain ⟨fuel, rfl⟩ : ∃ fuel', fuel = fuel' + 1 := ⟨fuel - 1, by omega⟩
    rw [parameterList]
    refine (bind_of_ok (reportSurplus_lt _ (by omega) _)).trans ?_
    refine (bind_of_ok (expectName_cons _ ht)).trans ?_
    refine (ifAccept_cons hc).trans ?_
    exact bind_of_ok (ih fuel (count + 1) (by omega) (by omega))

/-- At the closing parenthesis there are no parameters. -/
theorem parameters_none (hr : r.is .rightParen) :
    parameters ⟨r :: rest, f, n, errs⟩ = .ok [] ⟨r :: rest, f, n, errs⟩ :=
  ifCheck_cons hr

/-- Parameters between parentheses are read, as long as they are not too many. -/
theorem parameters_some {names : List Name} (h : Parameters names ts) (hr : r.is .rightParen)
    (hmax : names.length ≤ maxArguments) :
    parameters ⟨ts ++ r :: rest, f, n, errs⟩ = .ok names ⟨r :: rest, f, n, errs⟩ := by
  have hlist : parameterList ((ts ++ r :: rest).length + 1) 0 ⟨ts ++ r :: rest, f, n, errs⟩ =
      .ok names ⟨r :: rest, f, n, errs⟩ := by
    refine parameterList_ok h hr _ _ ?_ (by omega)
    rw [List.length_append]
    omega
  obtain ⟨t, us, rfl, ht⟩ : ∃ t us, ts = t :: us ∧ t.kind = .identifier := by
    cases h with
    | last ht => exact ⟨_, _, rfl, ht⟩
    | more ht => exact ⟨_, _, rfl, ht⟩
  have hnot : t.is .rightParen = false := by simp [Token.is, ht]
  exact (ifCheck_not hnot).trans ((bind_of_ok rfl).trans hlist)

/-- The name of a superclass is read, if there is one before the brace. -/
theorem superclassClause_ok {parent : Option Ref} (h : Parent parent n ts m)
    (hl : l.is .leftBrace) :
    superclassClause ⟨ts ++ l :: rest, f, n, errs⟩ = .ok parent ⟨l :: rest, f, m, errs⟩ := by
  cases h with
  | none => exact ifAccept_not (not_startsWith_cons (is_eq_false hl (by decide)))
  | some hless ht => exact (ifAccept_cons hless).trans (bind_of_ok (expectName_cons _ ht))

/-- The first clause of a `for` is read with its semicolon. -/
theorem forInitializer_ok {first : Option Stmt} (h : First first n ts m) :
    forInitializer ⟨ts ++ rest, f, n, errs⟩ = .ok first ⟨rest, f, m, errs⟩ := by
  cases h with
  | none hq => exact ifAccept_cons hq
  | varDecl hv hs =>
    refine (ifAccept_not (not_startsWith_cons (is_eq_false hv (by decide)))).trans ?_
    exact (ifAccept_cons hv).trans (map_ok (varDeclaration_ok hs))
  | @expression e _ _ _ he =>
    have hplain : (some <$> expressionStatement) ⟨ts ++ rest, f, n, errs⟩ =
        .ok (some (.expression e)) ⟨rest, f, m, errs⟩ := map_ok (plain_ok he _ Stmt.expression)
    obtain ⟨t, us, rfl, ht⟩ := he.first
    refine (ifAccept_not (not_startsWith_cons (is_eq_false_of ht rfl))).trans ?_
    exact (ifAccept_not (not_startsWith_cons (is_eq_false_of ht rfl))).trans hplain

/-- The statements of a block up to the brace that closes it. -/
theorem AcceptsSentence.block_ok (h : AcceptsSentence (.declarations ss) n ts m)
    (hr : r.is .rightBrace) {bound : Nat} (hlen : (ts ++ r :: rest).length ≤ bound) :
    block (declarationWithin bound) ⟨ts ++ r :: rest, f, n, errs⟩ = .ok ss ⟨rest, f, m, errs⟩ := by
  have hlist : declarationList (declarationWithin bound) (ts ++ r :: rest).length
      ⟨ts ++ r :: rest, f, n, errs⟩ = .ok ss ⟨r :: rest, f, m, errs⟩ := by
    refine h bound _ r rest f errs hr hlen ?_
    rw [List.length_append]
    omega
  refine (bind_of_ok rfl).trans ?_
  exact (bind_of_ok hlist).trans (bind_of_ok (expect_cons _ hr))

/-- A statement is a declaration. -/
theorem accepts_statement {o : Bool} (hd : (Sentence.statement o s).Derives true n ts m)
    (h : AcceptsSentence (.statement o s) n ts m) : AcceptsSentence (.declaration s) n ts m := by
  intro bound rest f errs hlen helse
  have hs := h bound rest f errs hlen fun _ => helse
  obtain ⟨t, us, rfl, ht⟩ := hd.first
  obtain ⟨bound, rfl⟩ : ∃ bound', bound = bound' + 1 := by
    rw [List.cons_append, List.length_cons] at hlen
    exact ⟨bound - 1, by omega⟩
  rw [statementWithin] at hs
  rw [declarationWithin]
  exact recover_ok ((declarationWith_statement ht).trans hs)

/-- A declaration of a variable is told by its first word. -/
theorem accepts_varDecl (hv : v.is .varWord) (h : Variable s n ts m) :
    AcceptsSentence (.declaration s) n (v :: ts) m := by
  intro bound rest f errs hlen _
  rw [List.cons_append, List.length_cons] at hlen
  obtain ⟨bound, rfl⟩ : ∃ bound', bound = bound' + 1 := ⟨bound - 1, by omega⟩
  rw [declarationWithin]
  refine recover_ok ?_
  rw [List.cons_append, declarationWith_cons, Token.kind_of_is hv]
  exact varDeclaration_ok h

/-- A declaration of a function is told by its first word. -/
theorem accepts_funDecl (hw : w.is .funWord) (h : AcceptsSentence (.function fn) n ts m) :
    AcceptsSentence (.declaration (.funDecl fn)) n (w :: ts) m := by
  intro bound rest f errs hlen _
  rw [List.cons_append, List.length_cons] at hlen
  obtain ⟨bound, rfl⟩ : ∃ bound', bound = bound' + 1 := ⟨bound - 1, by omega⟩
  rw [declarationWithin]
  refine recover_ok ?_
  rw [List.cons_append, declarationWith_cons, Token.kind_of_is hw]
  exact map_ok (h bound _ rest f errs (by omega))

/-- A declaration of a class is told by its first word, and its methods end at the closing
brace. -/
theorem accepts_classDecl {parent : Option Ref} (hw : w.is .classWord) (ht : t.kind = .identifier)
    (hp : Parent parent n us m) (hl : l.is .leftBrace)
    (h : AcceptsSentence (.functions fs) m ts k) (hr : r.is .rightBrace) :
    AcceptsSentence (.declaration (.classDecl t.asName parent fs)) n
      (w :: t :: (us ++ l :: (ts ++ [r]))) k := by
  intro bound rest f errs hlen _
  simp only [List.cons_append, List.append_assoc, List.nil_append] at hlen ⊢
  simp only [List.length_cons, List.length_append] at hlen
  obtain ⟨bound, rfl⟩ : ∃ bound', bound = bound' + 1 := ⟨bound - 1, by omega⟩
  have hmethods : methodList (declarationWithin bound) (ts ++ r :: rest).length
      ⟨ts ++ r :: rest, f, m, errs⟩ = .ok fs ⟨r :: rest, f, k, errs⟩ := by
    refine h bound _ r rest f errs hr ?_ ?_ <;>
      simp only [List.length_append, List.length_cons] <;> omega
  rw [declarationWithin]
  refine recover_ok ?_
  rw [declarationWith_cons, Token.kind_of_is hw]
  refine (bind_of_ok (expectName_cons _ ht)).trans ?_
  refine (bind_of_ok (superclassClause_ok hp hl)).trans ?_
  refine (bind_of_ok (expect_cons _ hl)).trans ?_
  refine (bind_of_ok rfl).trans ?_
  exact (bind_of_ok hmethods).trans (bind_of_ok (expect_cons _ hr))

/-- A list goes on where neither a brace nor the end stands. -/
theorem check_or_atEnd_cons {α : Type} {p p' : Parse α} (ht : t.is .rightBrace = false) :
    (do if (← check .rightBrace) || (← atEnd) then p else p' : Parse α)
      ⟨t :: rest, f, n, errs⟩ = p' ⟨t :: rest, f, n, errs⟩ := by
  refine (bind_of_ok rfl).trans ((bind_of_ok rfl).trans ?_)
  simp [Cursor.current, ht]

/-- A list ends at a closing brace. -/
theorem check_or_atEnd_brace {α : Type} {p p' : Parse α} (hr : r.is .rightBrace) :
    (do if (← check .rightBrace) || (← atEnd) then p else p' : Parse α)
      ⟨r :: rest, f, n, errs⟩ = p ⟨r :: rest, f, n, errs⟩ := by
  refine (bind_of_ok rfl).trans ((bind_of_ok rfl).trans ?_)
  simp [Cursor.current, hr]

/-- At the closing brace there are no methods. -/
theorem accepts_noMethods : AcceptsSentence (.functions []) n [] n := by
  intro bound fuel r rest f errs hr _ _
  cases fuel with
  | zero => rfl
  | succ fuel => exact check_or_atEnd_brace hr

/-- A method has more methods behind it. -/
theorem accepts_methods (hd : (Sentence.function fn).Derives true n ts m)
    (hf : AcceptsSentence (.function fn) n ts m) (hfs : AcceptsSentence (.functions fs) m us k) :
    AcceptsSentence (.functions (fn :: fs)) n (ts ++ us) k := by
  intro bound fuel r rest f errs hr hlen hfuel
  rw [List.append_assoc] at hlen ⊢
  have hfirst := hf bound "method" (us ++ r :: rest) f errs hlen
  obtain ⟨t, ts, rfl, ht⟩ := hd.first
  simp only [List.length_append, List.length_cons] at hlen hfuel
  obtain ⟨fuel, rfl⟩ : ∃ fuel', fuel = fuel' + 1 := ⟨fuel - 1, by omega⟩
  have hmore := hfs bound fuel r rest f errs hr
    (by simp only [List.length_append, List.length_cons]; omega) (by omega)
  have hnot : t.is .rightBrace = false := by simp [Token.is, ht]
  rw [methodList]
  refine (check_or_atEnd_cons hnot).trans ?_
  exact (bind_of_ok hfirst).trans (bind_of_ok hmore)

/-- At the end of a list there are no declarations. -/
theorem accepts_noDeclarations : AcceptsSentence (.declarations []) n [] n := by
  intro bound fuel r rest f errs hr _ _
  cases fuel with
  | zero => rfl
  | succ fuel => exact check_or_atEnd_brace hr

/-- No declaration starts with an `else`. -/
theorem not_else_of_declarations {nearest : Bool}
    (h : (Sentence.declarations ss).Derives nearest n ts m) (hrest : ¬StartsWith .elseWord rest) :
    ¬StartsWith .elseWord (ts ++ rest) := by
  cases h with
  | noDeclarations => exact hrest
  | declarations hs _ =>
    obtain ⟨t, us, rfl, ht⟩ := hs.first
    exact not_startsWith_cons (is_eq_false_of ht rfl)

/-- A declaration has more declarations behind it. -/
theorem accepts_declarations (hd : (Sentence.declaration s).Derives true n ts m)
    (hds : (Sentence.declarations ss).Derives true m us k)
    (hs : AcceptsSentence (.declaration s) n ts m)
    (hss : AcceptsSentence (.declarations ss) m us k) :
    AcceptsSentence (.declarations (s :: ss)) n (ts ++ us) k := by
  intro bound fuel r rest f errs hr hlen hfuel
  rw [List.append_assoc] at hlen ⊢
  have hbrace : ¬StartsWith .elseWord (r :: rest) :=
    not_startsWith_cons (is_eq_false hr (by decide))
  have hfirst := hs bound (us ++ r :: rest) f errs hlen (not_else_of_declarations hds hbrace)
  obtain ⟨t, ts, rfl, ht⟩ := hd.first
  simp only [List.length_append, List.length_cons] at hlen hfuel
  obtain ⟨fuel, rfl⟩ : ∃ fuel', fuel = fuel' + 1 := ⟨fuel - 1, by omega⟩
  have hmore := hss bound fuel r rest f errs hr
    (by simp only [List.length_append, List.length_cons]; omega) (by omega)
  rw [declarationList]
  refine (check_or_atEnd_cons (is_eq_false_of ht rfl)).trans ?_
  exact (bind_of_ok hfirst).trans (bind_of_ok hmore)

/-- A function may have no parameters. -/
theorem accepts_functionWithout (ht : t.kind = .identifier) (hl : l.is .leftParen)
    (hr : r.is .rightParen) (hb : b.is .leftBrace) (h : AcceptsSentence (.declarations ss) n ts m)
    (hc : c.is .rightBrace) :
    AcceptsSentence (.function ⟨t.asName, [], ss⟩) n (t :: l :: r :: b :: (ts ++ [c])) m := by
  intro bound kind rest f errs hlen
  simp only [List.cons_append, List.append_assoc, List.nil_append] at hlen ⊢
  simp only [List.length_cons] at hlen
  have hblock : block (declarationWithin bound) ⟨ts ++ c :: rest, f, n, errs⟩ =
      .ok ss ⟨rest, f, m, errs⟩ := h.block_ok hc (by omega)
  refine (bind_of_ok (expectName_cons _ ht)).trans ?_
  refine (bind_of_ok (expect_cons _ hl)).trans ?_
  refine (bind_of_ok (parameters_none hr)).trans ?_
  refine (bind_of_ok (expect_cons _ hr)).trans ?_
  exact (bind_of_ok (expect_cons _ hb)).trans (bind_of_ok hblock)

/-- A function may have parameters, which are not too many. -/
theorem accepts_functionWith {names : List Name} (ht : t.kind = .identifier) (hl : l.is .leftParen)
    (hps : Parameters names us) (hmax : names.length ≤ maxArguments) (hr : r.is .rightParen)
    (hb : b.is .leftBrace) (h : AcceptsSentence (.declarations ss) n ts m)
    (hc : c.is .rightBrace) :
    AcceptsSentence (.function ⟨t.asName, names, ss⟩) n
      (t :: l :: (us ++ r :: b :: (ts ++ [c]))) m := by
  intro bound kind rest f errs hlen
  simp only [List.cons_append, List.append_assoc, List.nil_append] at hlen ⊢
  simp only [List.length_cons, List.length_append] at hlen
  have hblock : block (declarationWithin bound) ⟨ts ++ c :: rest, f, n, errs⟩ =
      .ok ss ⟨rest, f, m, errs⟩ := by
    refine h.block_ok hc ?_
    simp only [List.length_append, List.length_cons]
    omega
  refine (bind_of_ok (expectName_cons _ ht)).trans ?_
  refine (bind_of_ok (expect_cons _ hl)).trans ?_
  refine (bind_of_ok (parameters_some hps hr hmax)).trans ?_
  refine (bind_of_ok (expect_cons _ hr)).trans ?_
  exact (bind_of_ok (expect_cons _ hb)).trans (bind_of_ok hblock)

/-- An expression with a semicolon behind it is a statement. -/
theorem accepts_expression (h : Plain e n ts m) :
    AcceptsSentence (.statement false (.expression e)) n ts m := by
  intro bound rest f errs hlen _
  have hplain : expressionStatement ⟨ts ++ rest, f, n, errs⟩ =
      .ok (.expression e) ⟨rest, f, m, errs⟩ := plain_ok h _ Stmt.expression
  obtain ⟨t, us, rfl, ht⟩ := h.first
  rw [List.cons_append, List.length_cons] at hlen
  obtain ⟨bound, rfl⟩ : ∃ bound', bound = bound' + 1 := ⟨bound - 1, by omega⟩
  rw [statementWithin]
  exact (statementWith_expression ht).trans hplain

/-- A print is told by its first word. -/
theorem accepts_print (hw : w.is .printWord) (h : Plain e n ts m) :
    AcceptsSentence (.statement false (.print e)) n (w :: ts) m := by
  intro bound rest f errs hlen _
  rw [List.cons_append, List.length_cons] at hlen
  obtain ⟨bound, rfl⟩ : ∃ bound', bound = bound' + 1 := ⟨bound - 1, by omega⟩
  rw [statementWithin, List.cons_append, statementWith_cons, Token.kind_of_is hw]
  exact plain_ok h _ Stmt.print

/-- A `return` is told by its first word, and its value ends at the semicolon. -/
theorem accepts_result (hw : w.is .returnWord) (h : Optional value n ts m)
    (hq : q.is .semicolon) :
    AcceptsSentence (.statement false (.result w.line value)) n (w :: (ts ++ [q])) m := by
  intro bound rest f errs hlen _
  rw [List.cons_append, List.length_cons] at hlen
  obtain ⟨bound, rfl⟩ : ∃ bound', bound = bound' + 1 := ⟨bound - 1, by omega⟩
  rw [statementWithin, List.cons_append, statementWith_cons, Token.kind_of_is hw,
    List.append_assoc, List.singleton_append]
  refine (bind_of_ok (expressionUnless_ok h hq (by simp))).trans ?_
  exact bind_of_ok (expect_cons _ hq)

/-- A block is told by its opening brace, and it ends at the closing one. -/
theorem accepts_block (hl : l.is .leftBrace) (h : AcceptsSentence (.declarations ss) n ts m)
    (hr : r.is .rightBrace) :
    AcceptsSentence (.statement false (.block ss)) n (l :: (ts ++ [r])) m := by
  intro bound rest f errs hlen _
  rw [List.cons_append, List.append_assoc, List.singleton_append] at hlen ⊢
  rw [List.length_cons] at hlen
  obtain ⟨bound, rfl⟩ : ∃ bound', bound = bound' + 1 := ⟨bound - 1, by omega⟩
  rw [statementWithin, statementWith_cons, Token.kind_of_is hl]
  exact map_ok (h.block_ok hr (by omega))

/-- Without an `else` behind it, a choice ends after its first branch. -/
theorem accepts_branch {o : Bool} (hw : w.is .ifWord) (hl : l.is .leftParen)
    (he : (Phrase.expression e).Derives n ts m) (hr : r.is .rightParen)
    (hy : AcceptsSentence (.statement o yes) m us k) :
    AcceptsSentence (.statement true (.branch e yes none)) n (w :: l :: (ts ++ r :: us)) k := by
  intro bound rest f errs hlen helse
  simp only [List.cons_append, List.append_assoc] at hlen ⊢
  simp only [List.length_cons, List.length_append] at hlen
  obtain ⟨bound, rfl⟩ : ∃ bound', bound = bound' + 1 := ⟨bound - 1, by omega⟩
  have hshort : (us ++ rest).length ≤ bound := by rw [List.length_append]; omega
  rw [statementWithin, statementWith_cons, Token.kind_of_is hw]
  refine (bind_of_ok (expect_cons _ hl)).trans ?_
  refine (bind_of_ok (expression_ok he (ends_cons hr (by simp) _))).trans ?_
  refine (bind_of_ok (expect_cons _ hr)).trans ?_
  refine (bind_of_ok (hy bound rest f errs hshort fun _ => helse rfl)).trans ?_
  exact bind_of_ok (ifAccept_not (helse rfl))

/-- A conditional with an `else` is told by its first word. The branch before the `else`
cannot take it. -/
theorem accepts_branchElse {o' : Bool} (hw : w.is .ifWord) (hl : l.is .leftParen)
    (he : (Phrase.expression e).Derives n ts m) (hr : r.is .rightParen)
    (hy : AcceptsSentence (.statement false yes) m us k) (hq : q.is .elseWord)
    (hn : AcceptsSentence (.statement o' no) k vs j) :
    AcceptsSentence (.statement o' (.branch e yes (some no))) n
      (w :: l :: (ts ++ r :: (us ++ q :: vs))) j := by
  intro bound rest f errs hlen helse
  simp only [List.cons_append, List.append_assoc] at hlen ⊢
  simp only [List.length_cons, List.length_append] at hlen
  obtain ⟨bound, rfl⟩ : ∃ bound', bound = bound' + 1 := ⟨bound - 1, by omega⟩
  have hshort : (vs ++ rest).length ≤ bound := by rw [List.length_append]; omega
  have hyes : statementWithin bound ⟨us ++ q :: (vs ++ rest), f, m, errs⟩ =
      .ok yes ⟨q :: (vs ++ rest), f, k, errs⟩ := by
    refine hy bound _ f errs ?_ nofun
    simp only [List.length_append, List.length_cons]
    omega
  rw [statementWithin, statementWith_cons, Token.kind_of_is hw]
  refine (bind_of_ok (expect_cons _ hl)).trans ?_
  refine (bind_of_ok (expression_ok he (ends_cons hr (by simp) _))).trans ?_
  refine (bind_of_ok (expect_cons _ hr)).trans ?_
  refine (bind_of_ok hyes).trans ?_
  exact bind_of_ok ((ifAccept_cons hq).trans (map_ok (hn bound rest f errs hshort helse)))

/-- A `while` is told by its first word. -/
theorem accepts_loop {o : Bool} (hw : w.is .whileWord) (hl : l.is .leftParen)
    (he : (Phrase.expression e).Derives n ts m) (hr : r.is .rightParen)
    (hb : AcceptsSentence (.statement o body) m us k) :
    AcceptsSentence (.statement o (.loop e body)) n (w :: l :: (ts ++ r :: us)) k := by
  intro bound rest f errs hlen helse
  simp only [List.cons_append, List.append_assoc] at hlen ⊢
  simp only [List.length_cons, List.length_append] at hlen
  obtain ⟨bound, rfl⟩ : ∃ bound', bound = bound' + 1 := ⟨bound - 1, by omega⟩
  have hshort : (us ++ rest).length ≤ bound := by rw [List.length_append]; omega
  rw [statementWithin, statementWith_cons, Token.kind_of_is hw]
  refine (bind_of_ok (expect_cons _ hl)).trans ?_
  refine (bind_of_ok (expression_ok he (ends_cons hr (by simp) _))).trans ?_
  refine (bind_of_ok (expect_cons _ hr)).trans ?_
  exact bind_of_ok (hb bound rest f errs hshort helse)

/-- A `for` is told by its first word, and it is read as the tree of its clauses. -/
theorem accepts_forLoop {o : Bool} {first : Option Stmt} {condition increment : Option Expr}
    (hw : w.is .forWord) (hl : l.is .leftParen) (hf : First first n ts m)
    (hcond : Optional condition m us k) (hq : q.is .semicolon) (hi : Optional increment k vs j)
    (hr : r.is .rightParen) (hb : AcceptsSentence (.statement o body) j ws i) :
    AcceptsSentence (.statement o (precededBy
      (.loop (condition.getD (.literal (.bool true))) (followedBy body increment)) first)) n
      (w :: l :: (ts ++ (us ++ q :: (vs ++ r :: ws)))) i := by
  intro bound rest f errs hlen helse
  simp only [List.cons_append, List.append_assoc] at hlen ⊢
  simp only [List.length_cons, List.length_append] at hlen
  obtain ⟨bound, rfl⟩ : ∃ bound', bound = bound' + 1 := ⟨bound - 1, by omega⟩
  have hshort : (ws ++ rest).length ≤ bound := by rw [List.length_append]; omega
  rw [← forLoop_eq, statementWithin, statementWith_cons, Token.kind_of_is hw]
  refine (bind_of_ok (expect_cons _ hl)).trans ?_
  refine (bind_of_ok (forInitializer_ok hf)).trans ?_
  refine (bind_of_ok (expressionUnless_ok hcond hq (by simp))).trans ?_
  refine (bind_of_ok (expect_cons _ hq)).trans ?_
  refine (bind_of_ok (expressionUnless_ok hi hr (by simp))).trans ?_
  refine (bind_of_ok (expect_cons _ hr)).trans ?_
  exact bind_of_ok (hb bound rest f errs hshort helse)

end Statements

/-- The parser of a sentence takes the tokens that derive it, if each `else`
belongs to the nearest `if`. -/
theorem acceptsSentence_of_derives {p : Sentence} {n m : Nat} {ts : List Token}
    (h : p.Derives true n ts m) : AcceptsSentence p n ts m := by
  induction h with
  | statement h ih => exact accepts_statement h ih
  | varDecl hv h => exact accepts_varDecl hv h
  | funDecl hw _ ih => exact accepts_funDecl hw ih
  | classDecl hw ht hp hl _ hr ih => exact accepts_classDecl hw ht hp hl ih hr
  | noMethods => exact accepts_noMethods
  | methods hf _ ihf ihfs => exact accepts_methods hf ihf ihfs
  | functionWithout ht hl hr hb _ hc ih => exact accepts_functionWithout ht hl hr hb ih hc
  | functionWith ht hl hps hmax hr hb _ hc ih =>
    exact accepts_functionWith ht hl hps hmax hr hb ih hc
  | noDeclarations => exact accepts_noDeclarations
  | declarations hs hss ihs ihss => exact accepts_declarations hs hss ihs ihss
  | expression h => exact accepts_expression h
  | print hw h => exact accepts_print hw h
  | result hw h hs => exact accepts_result hw h hs
  | block hl _ hr ih => exact accepts_block hl ih hr
  | branch hw hl he hr _ ih => exact accepts_branch hw hl he hr ih
  | branchElse hw hl he hr _ hopen hq _ ihy ihn =>
    cases hopen rfl
    exact accepts_branchElse hw hl he hr ihy hq ihn
  | loop hw hl he hr _ ih => exact accepts_loop hw hl he hr ih
  | forLoop hw hl hf hc hs hi hr _ ih => exact accepts_forLoop hw hl hf hc hs hi hr ih

/-- Declarations up to the end are read as a program. -/
theorem programList_ok {ss : List Stmt} {n m : Nat} {ts : List Token} {f : Token}
    {errs : Array SyntaxError} (h : (Sentence.declarations ss).Derives true n ts m) {fuel : Nat}
    (hfuel : ts.length ≤ fuel) :
    programList fuel ⟨ts, f, n, errs⟩ = .ok ss ⟨[], f, m, errs⟩ := by
  induction ss generalizing n ts fuel with
  | nil =>
    cases h
    cases fuel <;> rfl
  | cons s ss ih =>
    cases h with
    | @declarations _ _ ts us _ k _ hs hss =>
      have hfirst : declaration ⟨ts ++ us, f, n, errs⟩ = .ok (some s) ⟨us, f, k, errs⟩ := by
        refine (bind_of_ok rfl).trans ?_
        refine acceptsSentence_of_derives hs _ us f errs (Nat.le_refl _) ?_
        have helse : ¬StartsWith .elseWord (us ++ []) := by
          refine not_else_of_declarations hss fun hnil => ?_
          obtain ⟨t, ht, -⟩ := hnil
          cases ht
        rwa [List.append_nil] at helse
      obtain ⟨t, vs, rfl, -⟩ := hs.first
      simp only [List.length_append, List.length_cons] at hfuel
      obtain ⟨fuel, rfl⟩ : ∃ fuel', fuel = fuel' + 1 := ⟨fuel - 1, by omega⟩
      rw [programList]
      refine (bind_of_ok rfl).trans ?_
      exact (bind_of_ok hfirst).trans (bind_of_ok (ih hss (by omega)))

/-- A program that derives tokens is what reading them yields. -/
theorem program_ok {ss : List Stmt} {n m : Nat} {ts : List Token} {f : Token}
    {errs : Array SyntaxError} (h : (Sentence.declarations ss).Derives true n ts m) :
    program ⟨ts, f, n, errs⟩ = .ok ss ⟨[], f, m, errs⟩ :=
  (bind_of_ok rfl).trans (programList_ok h (Nat.le_refl _))

end Lox.Parse
