import Lox.Proofs.Grammar

/-!
# The first token of a phrase

Which tokens an expression, a statement or a declaration can start with. A
parser that looks at one token finds in these the rule it has to follow.
-/

namespace Lox.Grammar

/-- The tokens that an expression can start with. -/
def startsExpression : Token.Kind → Bool
  | .identifier | .number _ | .string _ => true
  | .symbol s => s ∈ [.falseWord, .trueWord, .nilWord, .thisWord, .superWord, .leftParen, .bang,
      .minus]
  | .finish => false

/-- The tokens that a statement can start with. -/
def opensStatement (kind : Token.Kind) : Bool :=
  startsExpression kind || kind ∈ [.symbol .printWord, .symbol .returnWord, .symbol .leftBrace,
    .symbol .ifWord, .symbol .whileWord, .symbol .forWord]

/-- The tokens that a declaration can start with. -/
def opensDeclaration (kind : Token.Kind) : Bool :=
  opensStatement kind || kind ∈ [.symbol .classWord, .symbol .funWord, .symbol .varWord]

/-- A token that is a symbol has the kind of that symbol. -/
theorem Token.kind_of_is {t : Token} {s : Symbol} (h : t.is s) : t.kind = .symbol s := by
  simpa [Token.is] using h

/-- A literal starts an expression. -/
theorem startsExpression_of_literal? {kind : Token.Kind} {v : Literal}
    (h : literal? kind = some v) : startsExpression kind := by
  unfold literal? at h
  split at h <;> simp_all [startsExpression]

/-- A unary operator starts an expression. -/
theorem startsExpression_of_unary {s : Symbol} {op : UnaryOp} (h : (s, op) ∈ unaryOperators) :
    startsExpression (.symbol s) := by
  simp only [unaryOperators, List.mem_cons, List.not_mem_nil, or_false, Prod.mk.injEq] at h
  rcases h with ⟨rfl, -⟩ | ⟨rfl, -⟩ <;> rfl

/-- A phrase other than an empty list of arguments starts like an expression. -/
theorem Phrase.Derives.first {p : Phrase} {n m : Nat} {ts : List Token} (h : p.Derives n ts m) :
    p = .arguments [] ∧ ts = [] ∨ ∃ t us, ts = t :: us ∧ startsExpression t.kind := by
  induction h with
  | literal h => exact .inr ⟨_, _, rfl, startsExpression_of_literal? h⟩
  | name h => exact .inr ⟨_, _, rfl, by rw [h]; rfl⟩
  | this h => exact .inr ⟨_, _, rfl, by rw [Token.kind_of_is h]; rfl⟩
  | super hs => exact .inr ⟨_, _, rfl, by rw [Token.kind_of_is hs]; rfl⟩
  | group hl => exact .inr ⟨_, _, rfl, by rw [Token.kind_of_is hl]; rfl⟩
  | noArguments => exact .inl ⟨rfl, rfl⟩
  | applied ht hs => exact .inr ⟨_, _, rfl, by rw [ht]; exact startsExpression_of_unary hs⟩
  | assign ht => exact .inr ⟨_, _, rfl, by rw [ht]; rfl⟩
  | primary _ ih | last _ ih | operand _ ih | tightest _ ih | tighter _ ih | operation _ ih
  | someArguments _ ih =>
    rcases ih with ⟨hp, -⟩ | ih
    · cases hp
    · exact .inr ih
  | property _ _ _ ih | invocation _ _ _ _ _ ih | more _ _ _ ih | joined _ _ _ _ ih
  | set _ _ _ _ _ ih =>
    rcases ih with ⟨hp, -⟩ | ⟨t, us, rfl, ht⟩
    · cases hp
    · exact .inr ⟨t, _, rfl, ht⟩

/-- An expression has a first token, and it is one that starts expressions. -/
theorem Phrase.Derives.first_expression {e : Expr} {n m : Nat} {ts : List Token}
    (h : (Phrase.expression e).Derives n ts m) :
    ∃ t us, ts = t :: us ∧ startsExpression t.kind := by
  rcases h.first with ⟨hp, -⟩ | h
  · cases hp
  · exact h

/-- So has an expression with a semicolon behind it. -/
theorem Plain.first {e : Expr} {n m : Nat} {ts : List Token} (h : Plain e n ts m) :
    ∃ t us, ts = t :: us ∧ startsExpression t.kind := by
  cases h with
  | mk he hs =>
    obtain ⟨t, us, rfl, ht⟩ := he.first_expression
    exact ⟨t, _, rfl, ht⟩

/-- What a sentence that is not a list starts with. -/
def Sentence.Starts : Sentence → List Token → Prop
  | .declaration _, ts => ∃ t us, ts = t :: us ∧ opensDeclaration t.kind
  | .statement _ _, ts => ∃ t us, ts = t :: us ∧ opensStatement t.kind
  | .function _, ts => ∃ t us, ts = t :: us ∧ t.kind = .identifier
  | .declarations _, _ => True
  | .functions _, _ => True

/-- A sentence has a first token, and it is one that starts such sentences. -/
theorem Sentence.Derives.first {nearest : Bool} {p : Sentence} {n m : Nat} {ts : List Token}
    (h : p.Derives nearest n ts m) : p.Starts ts := by
  induction h with
  | statement _ ih =>
    obtain ⟨t, us, rfl, ht⟩ := ih
    exact ⟨t, us, rfl, by rw [opensDeclaration, ht, Bool.true_or]⟩
  | varDecl hv => exact ⟨_, _, rfl, by rw [Token.kind_of_is hv]; rfl⟩
  | funDecl hw => exact ⟨_, _, rfl, by rw [Token.kind_of_is hw]; rfl⟩
  | classDecl hw => exact ⟨_, _, rfl, by rw [Token.kind_of_is hw]; rfl⟩
  | noMethods | methods | noDeclarations | declarations => trivial
  | functionWithout ht | functionWith ht => exact ⟨_, _, rfl, ht⟩
  | expression h =>
    obtain ⟨t, us, rfl, ht⟩ := h.first
    exact ⟨t, us, rfl, by rw [opensStatement, ht, Bool.true_or]⟩
  | print hw | result hw | block hw | branch hw | branchElse hw | loop hw | forLoop hw =>
    exact ⟨_, _, rfl, by rw [Token.kind_of_is hw]; rfl⟩

end Lox.Grammar
