import Lox.Grammar.Statement

/-!
# The grammar as a relation

What it means that tokens are an expression, a statement or a program with a
given tree, said without a parser. A derivation also hands out identities: the
number before the tokens is the first identity that is free, and the number
after them is the first one that is free then. The numbers never decide whether
a derivation exists; they only fix which identity stands where in its tree.

The rule of the conditional statement is ambiguous, because an `else` can belong
to any `if` that is still open. The parameter `nearest` tells the two readings
apart: without it the rule is as written, and with it the first branch of an
`if` with an `else` must not be open itself, so each `else` belongs to the
nearest `if` that can take it.
-/

namespace Lox

/-- The name that the text of a token spells. -/
def Token.asName (token : Token) : Name := ⟨token.lexeme, token.line⟩

namespace Grammar

/-- The operators between two operands. -/
inductive Operator where
  | binary (op : BinaryOp)
  | logical (op : LogicalOp)
  deriving DecidableEq

/-- The tree that an operator builds from its line and its operands. -/
def Operator.tree : Operator → Nat → Expr → Expr → Expr
  | .binary op => .binary op
  | .logical op => .logical op

/-- The operators of one level of precedence with their symbols. -/
abbrev Level := List (Symbol × Operator)

/-- The levels of operators between two operands, loosest first. -/
def precedence : List Level :=
  [[(.orWord, .logical .or)],
    [(.andWord, .logical .and)],
    [(.bangEqual, .binary .notEqual), (.equalEqual, .binary .equal)],
    [(.greater, .binary .greater), (.greaterEqual, .binary .greaterEqual),
      (.less, .binary .less), (.lessEqual, .binary .lessEqual)],
    [(.minus, .binary .subtract), (.plus, .binary .add)],
    [(.slash, .binary .divide), (.star, .binary .multiply)]]

/-- The operators before one operand. -/
def unaryOperators : List (Symbol × UnaryOp) := [(.bang, .not), (.minus, .negate)]

/-- The value that a token writes down, if it is a literal. -/
def literal? : Token.Kind → Option Literal
  | .symbol .falseWord => some (.bool false)
  | .symbol .trueWord => some (.bool true)
  | .symbol .nilWord => some .nil
  | .number value => some (.number value)
  | .string contents => some (.string contents)
  | _ => none

/-- The parts of the grammar of expressions, each with its tree. -/
inductive Phrase where
  /-- A literal, a name, `this`, `super.name` or an expression in parentheses. -/
  | primary (e : Expr)
  /-- A primary with the calls and properties that follow it. -/
  | call (e : Expr)
  /-- A call with the operators before it. -/
  | unary (e : Expr)
  /-- Operands joined by operators of the given levels, loosest first. -/
  | operation (levels : List Level) (e : Expr)
  /-- An operation or an assignment. -/
  | expression (e : Expr)
  /-- One or more expressions with commas between them. -/
  | list (es : List Expr)
  /-- No expression, or a list of them. -/
  | arguments (es : List Expr)

/-- The rules of expressions. -/
inductive Phrase.Derives : Phrase → Nat → List Token → Nat → Prop where
  /-- A literal is one token. -/
  | literal {t : Token} {v : Literal} {n : Nat} (h : literal? t.kind = some v) :
      Derives (.primary (.literal v)) n [t] n
  /-- A variable is an identifier, with the next identity. -/
  | name {t : Token} {n : Nat} (h : t.kind = .identifier) :
      Derives (.primary (.var ⟨n, t.asName⟩)) n [t] (n + 1)
  /-- A `this` is the keyword, with the next identity. -/
  | this {t : Token} {n : Nat} (h : t.is .thisWord) :
      Derives (.primary (.this n t.line)) n [t] (n + 1)
  /-- A `super` is the keyword, a point and the name of a method, with the next identity. -/
  | super {s d t : Token} {n : Nat} (hs : s.is .superWord) (hd : d.is .dot)
      (ht : t.kind = .identifier) :
      Derives (.primary (.super n s.line t.asName)) n [s, d, t] (n + 1)
  /-- An expression in parentheses is an operand. -/
  | group {l r : Token} {e : Expr} {ts : List Token} {n m : Nat} (hl : l.is .leftParen)
      (he : Derives (.expression e) n ts m) (hr : r.is .rightParen) :
      Derives (.primary (.group e)) n (l :: (ts ++ [r])) m
  /-- A call may have no suffixes. -/
  | primary {e : Expr} {ts : List Token} {n m : Nat} (h : Derives (.primary e) n ts m) :
      Derives (.call e) n ts m
  /-- A point and a name are a suffix. -/
  | property {d t : Token} {e : Expr} {ts : List Token} {n m : Nat}
      (he : Derives (.call e) n ts m) (hd : d.is .dot) (ht : t.kind = .identifier) :
      Derives (.call (.get e t.asName)) n (ts ++ [d, t]) m
  /-- Arguments in parentheses are a suffix; the call is on the line of the closing one. -/
  | invocation {l r : Token} {e : Expr} {es : List Expr} {ts us : List Token} {n m k : Nat}
      (he : Derives (.call e) n ts m) (hl : l.is .leftParen)
      (hes : Derives (.arguments es) m us k) (hmax : es.length ≤ maxArguments)
      (hr : r.is .rightParen) :
      Derives (.call (.call e es r.line)) n (ts ++ l :: (us ++ [r])) k
  /-- There may be no arguments. -/
  | noArguments {n : Nat} : Derives (.arguments []) n [] n
  /-- There may be a list of arguments. -/
  | someArguments {es : List Expr} {ts : List Token} {n m : Nat} (h : Derives (.list es) n ts m) :
      Derives (.arguments es) n ts m
  /-- A list may be one expression. -/
  | last {e : Expr} {ts : List Token} {n m : Nat} (h : Derives (.expression e) n ts m) :
      Derives (.list [e]) n ts m
  /-- A list may go on behind a comma. -/
  | more {c : Token} {e : Expr} {es : List Expr} {ts us : List Token} {n m k : Nat}
      (he : Derives (.expression e) n ts m) (hc : c.is .comma) (hes : Derives (.list es) m us k) :
      Derives (.list (e :: es)) n (ts ++ c :: us) k
  /-- There may be no prefix operator. -/
  | operand {e : Expr} {ts : List Token} {n m : Nat} (h : Derives (.call e) n ts m) :
      Derives (.unary e) n ts m
  /-- A prefix operator goes before an operand that may have prefix operators itself. -/
  | applied {t : Token} {s : Symbol} {op : UnaryOp} {e : Expr} {ts : List Token} {n m : Nat}
      (ht : t.kind = .symbol s) (hs : (s, op) ∈ unaryOperators)
      (he : Derives (.unary e) n ts m) :
      Derives (.unary (.unary op t.line e)) n (t :: ts) m
  /-- Below all levels there are the prefix operators. -/
  | tightest {e : Expr} {ts : List Token} {n m : Nat} (h : Derives (.unary e) n ts m) :
      Derives (.operation [] e) n ts m
  /-- An operation of a level may be one of the tighter levels. -/
  | tighter {level : Level} {levels : List Level} {e : Expr} {ts : List Token} {n m : Nat}
      (h : Derives (.operation levels e) n ts m) :
      Derives (.operation (level :: levels) e) n ts m
  /-- An operator joins to the left: its left side is of its own level, its right side is not. -/
  | joined {t : Token} {s : Symbol} {op : Operator} {level : Level} {levels : List Level}
      {a b : Expr} {ts us : List Token} {n m k : Nat}
      (ha : Derives (.operation (level :: levels) a) n ts m) (ht : t.kind = .symbol s)
      (hs : (s, op) ∈ level) (hb : Derives (.operation levels b) m us k) :
      Derives (.operation (level :: levels) (op.tree t.line a b)) n (ts ++ t :: us) k
  /-- An expression may be an operation. -/
  | operation {e : Expr} {ts : List Token} {n m : Nat}
      (h : Derives (.operation precedence e) n ts m) :
      Derives (.expression e) n ts m
  /-- A name may be assigned to, and the target gets its identity behind the value. -/
  | assign {t q : Token} {e : Expr} {ts : List Token} {n m : Nat} (ht : t.kind = .identifier)
      (hq : q.is .equal) (he : Derives (.expression e) (n + 1) ts m) :
      Derives (.expression (.assign ⟨m, t.asName⟩ e)) n (t :: q :: ts) (m + 1)
  /-- A property may be assigned to. -/
  | set {d t q : Token} {o e : Expr} {ts us : List Token} {n m k : Nat}
      (ho : Derives (.call o) n ts m) (hd : d.is .dot) (ht : t.kind = .identifier)
      (hq : q.is .equal) (he : Derives (.expression e) m us k) :
      Derives (.expression (.set o t.asName e)) n (ts ++ d :: t :: q :: us) k

/-- An expression that may be missing. -/
inductive Optional : Option Expr → Nat → List Token → Nat → Prop where
  /-- Nothing stands there. -/
  | none {n : Nat} : Optional none n [] n
  /-- An expression stands there. -/
  | some {e : Expr} {ts : List Token} {n m : Nat}
      (h : (Phrase.expression e).Derives n ts m) : Optional (some e) n ts m

/-- The value that a variable starts from, which may be missing. -/
inductive Initial : Option Expr → Nat → List Token → Nat → Prop where
  /-- There is no `=`. -/
  | none {n : Nat} : Initial none n [] n
  /-- A value stands behind the `=`. -/
  | some {q : Token} {e : Expr} {ts : List Token} {n m : Nat} (hq : q.is .equal)
      (h : (Phrase.expression e).Derives n ts m) : Initial (some e) n (q :: ts) m

/-- A variable after its keyword. -/
inductive Variable : Stmt → Nat → List Token → Nat → Prop where
  /-- The name, its initial value if there is one, and a semicolon. -/
  | mk {t s : Token} {value : Option Expr} {ts : List Token} {n m : Nat}
      (ht : t.kind = .identifier) (h : Initial value n ts m) (hs : s.is .semicolon) :
      Variable (.varDecl t.asName value) n (t :: (ts ++ [s])) m

/-- An expression and the semicolon that makes it a statement. -/
inductive Plain : Expr → Nat → List Token → Nat → Prop where
  /-- The expression and the semicolon. -/
  | mk {s : Token} {e : Expr} {ts : List Token} {n m : Nat}
      (h : (Phrase.expression e).Derives n ts m) (hs : s.is .semicolon) :
      Plain e n (ts ++ [s]) m

/-- The first clause of a `for` statement with the semicolon that ends it. -/
inductive First : Option Stmt → Nat → List Token → Nat → Prop where
  /-- Nothing stands before the semicolon. -/
  | none {s : Token} {n : Nat} (hs : s.is .semicolon) : First none n [s] n
  /-- A variable is declared. -/
  | varDecl {v : Token} {s : Stmt} {ts : List Token} {n m : Nat} (hv : v.is .varWord)
      (h : Variable s n ts m) : First (some s) n (v :: ts) m
  /-- An expression is evaluated. -/
  | expression {e : Expr} {ts : List Token} {n m : Nat} (h : Plain e n ts m) :
      First (some (.expression e)) n ts m

/-- One or more parameters with commas between them. -/
inductive Parameters : List Name → List Token → Prop where
  /-- A name may be the last one. -/
  | last {t : Token} (h : t.kind = .identifier) : Parameters [t.asName] [t]
  /-- Names may go on behind a comma. -/
  | more {t c : Token} {names : List Name} {ts : List Token} (ht : t.kind = .identifier)
      (hc : c.is .comma) (h : Parameters names ts) :
      Parameters (t.asName :: names) (t :: c :: ts)

/-- The superclass of a class, which may be missing. -/
inductive Parent : Option Ref → Nat → List Token → Nat → Prop where
  /-- There is no superclass. -/
  | none {n : Nat} : Parent none n [] n
  /-- The superclass is a variable behind a `<`. -/
  | some {l t : Token} {n : Nat} (hl : l.is .less) (ht : t.kind = .identifier) :
      Parent (some ⟨n, t.asName⟩) n [l, t] (n + 1)

/-- The body of a loop with what follows each run of it. -/
def followedBy (body : Stmt) : Option Expr → Stmt
  | none => body
  | some increment => .block [body, .expression increment]

/-- A loop with what runs once before it, in a scope of its own. -/
def precededBy (loop : Stmt) : Option Stmt → Stmt
  | none => loop
  | some first => .block [first, loop]

/-- The parts of the grammar of statements, each with its tree. A statement is
open if an `else` after it would belong to an `if` in it. -/
inductive Sentence where
  /-- A declaration, or a statement in its place. -/
  | declaration (s : Stmt)
  /-- Declarations one after the other. -/
  | declarations (ss : List Stmt)
  /-- A statement, open or not. -/
  | statement (isOpen : Bool) (s : Stmt)
  /-- A function behind its keyword, or a method. -/
  | function (f : FunDecl)
  /-- Methods one after the other. -/
  | functions (fs : List FunDecl)

/-- The rules of statements and declarations. -/
inductive Sentence.Derives (nearest : Bool) : Sentence → Nat → List Token → Nat → Prop where
  /-- A statement stands in the place of a declaration. -/
  | statement {o : Bool} {s : Stmt} {ts : List Token} {n m : Nat}
      (h : Derives nearest (.statement o s) n ts m) : Derives nearest (.declaration s) n ts m
  /-- A variable behind its keyword. -/
  | varDecl {v : Token} {s : Stmt} {ts : List Token} {n m : Nat} (hv : v.is .varWord)
      (h : Variable s n ts m) : Derives nearest (.declaration s) n (v :: ts) m
  /-- A function behind its keyword. -/
  | funDecl {w : Token} {f : FunDecl} {ts : List Token} {n m : Nat} (hw : w.is .funWord)
      (h : Derives nearest (.function f) n ts m) :
      Derives nearest (.declaration (.funDecl f)) n (w :: ts) m
  /-- A class with its superclass and its methods. -/
  | classDecl {w t l r : Token} {parent : Option Ref} {fs : List FunDecl} {us ts : List Token}
      {n m k : Nat} (hw : w.is .classWord) (ht : t.kind = .identifier) (hp : Parent parent n us m)
      (hl : l.is .leftBrace) (h : Derives nearest (.functions fs) m ts k) (hr : r.is .rightBrace) :
      Derives nearest (.declaration (.classDecl t.asName parent fs)) n
        (w :: t :: (us ++ l :: (ts ++ [r]))) k
  /-- There may be no more methods. -/
  | noMethods {n : Nat} : Derives nearest (.functions []) n [] n
  /-- A method and those that follow it. -/
  | methods {f : FunDecl} {fs : List FunDecl} {ts us : List Token} {n m k : Nat}
      (hf : Derives nearest (.function f) n ts m) (hfs : Derives nearest (.functions fs) m us k) :
      Derives nearest (.functions (f :: fs)) n (ts ++ us) k
  /-- A function without parameters. -/
  | functionWithout {t l r b c : Token} {ss : List Stmt} {ts : List Token} {n m : Nat}
      (ht : t.kind = .identifier) (hl : l.is .leftParen) (hr : r.is .rightParen)
      (hb : b.is .leftBrace) (h : Derives nearest (.declarations ss) n ts m)
      (hc : c.is .rightBrace) :
      Derives nearest (.function ⟨t.asName, [], ss⟩) n (t :: l :: r :: b :: (ts ++ [c])) m
  /-- A function with parameters, which are not too many. -/
  | functionWith {t l r b c : Token} {names : List Name} {ss : List Stmt} {us ts : List Token}
      {n m : Nat} (ht : t.kind = .identifier) (hl : l.is .leftParen) (hps : Parameters names us)
      (hmax : names.length ≤ maxArguments) (hr : r.is .rightParen) (hb : b.is .leftBrace)
      (h : Derives nearest (.declarations ss) n ts m) (hc : c.is .rightBrace) :
      Derives nearest (.function ⟨t.asName, names, ss⟩) n
        (t :: l :: (us ++ r :: b :: (ts ++ [c]))) m
  /-- There may be no more declarations. -/
  | noDeclarations {n : Nat} : Derives nearest (.declarations []) n [] n
  /-- A declaration and those that follow it. -/
  | declarations {s : Stmt} {ss : List Stmt} {ts us : List Token} {n m k : Nat}
      (hs : Derives nearest (.declaration s) n ts m)
      (hss : Derives nearest (.declarations ss) m us k) :
      Derives nearest (.declarations (s :: ss)) n (ts ++ us) k
  /-- An expression with its semicolon. -/
  | expression {e : Expr} {ts : List Token} {n m : Nat} (h : Plain e n ts m) :
      Derives nearest (.statement false (.expression e)) n ts m
  /-- A `print` statement. -/
  | print {w : Token} {e : Expr} {ts : List Token} {n m : Nat} (hw : w.is .printWord)
      (h : Plain e n ts m) : Derives nearest (.statement false (.print e)) n (w :: ts) m
  /-- A `return` statement, with the line of its keyword. -/
  | result {w s : Token} {value : Option Expr} {ts : List Token} {n m : Nat}
      (hw : w.is .returnWord) (h : Optional value n ts m) (hs : s.is .semicolon) :
      Derives nearest (.statement false (.result w.line value)) n (w :: (ts ++ [s])) m
  /-- Declarations in braces. -/
  | block {l r : Token} {ss : List Stmt} {ts : List Token} {n m : Nat} (hl : l.is .leftBrace)
      (h : Derives nearest (.declarations ss) n ts m) (hr : r.is .rightBrace) :
      Derives nearest (.statement false (.block ss)) n (l :: (ts ++ [r])) m
  /-- An `if` without `else`, which is open. -/
  | branch {w l r : Token} {e : Expr} {o : Bool} {yes : Stmt} {ts us : List Token} {n m k : Nat}
      (hw : w.is .ifWord) (hl : l.is .leftParen) (he : (Phrase.expression e).Derives n ts m)
      (hr : r.is .rightParen) (hy : Derives nearest (.statement o yes) m us k) :
      Derives nearest (.statement true (.branch e yes none)) n (w :: l :: (ts ++ r :: us)) k
  /-- An `if` with `else`. Where each `else` belongs to the nearest `if`, the first branch
  is not open. -/
  | branchElse {w l r q : Token} {e : Expr} {o o' : Bool} {yes no : Stmt}
      {ts us vs : List Token} {n m k j : Nat} (hw : w.is .ifWord) (hl : l.is .leftParen)
      (he : (Phrase.expression e).Derives n ts m) (hr : r.is .rightParen)
      (hy : Derives nearest (.statement o yes) m us k) (hopen : nearest → o = false)
      (hq : q.is .elseWord) (hn : Derives nearest (.statement o' no) k vs j) :
      Derives nearest (.statement o' (.branch e yes (some no))) n
        (w :: l :: (ts ++ r :: (us ++ q :: vs))) j
  /-- A `while` statement, which is open where its body is. -/
  | loop {w l r : Token} {e : Expr} {o : Bool} {body : Stmt} {ts us : List Token} {n m k : Nat}
      (hw : w.is .whileWord) (hl : l.is .leftParen) (he : (Phrase.expression e).Derives n ts m)
      (hr : r.is .rightParen) (hb : Derives nearest (.statement o body) m us k) :
      Derives nearest (.statement o (.loop e body)) n (w :: l :: (ts ++ r :: us)) k
  /-- A `for` statement, which is open where its body is, and which is the loop of its clauses. -/
  | forLoop {w l s r : Token} {first : Option Stmt} {condition increment : Option Expr} {o : Bool}
      {body : Stmt} {ts us vs ws : List Token} {n m k j i : Nat} (hw : w.is .forWord)
      (hl : l.is .leftParen) (hf : First first n ts m) (hc : Optional condition m us k)
      (hs : s.is .semicolon) (hi : Optional increment k vs j) (hr : r.is .rightParen)
      (hb : Derives nearest (.statement o body) j ws i) :
      Derives nearest (.statement o (precededBy
        (.loop (condition.getD (.literal (.bool true))) (followedBy body increment)) first)) n
        (w :: l :: (ts ++ (us ++ s :: (vs ++ r :: ws)))) i

end Grammar

end Lox
