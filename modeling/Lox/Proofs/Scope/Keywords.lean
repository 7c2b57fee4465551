import Lox.Proofs.Source

/-!
# Trees that leave the keywords alone

`this` and `super` are bound like names, by method calls and by classes. A tree
leaves them alone if it neither declares nor assigns to them: every variable,
function, class and parameter that it declares and every name that it assigns to
is a plain one. All trees that are read from a source are like that, whatever
the scope errors in them.
-/

namespace Lox

mutual

/-- An expression assigns to plain names only. -/
def Expr.Plain : Expr → Prop
  | .literal _ => True
  | .group inner => inner.Plain
  | .unary _ _ operand => operand.Plain
  | .binary _ _ left right => left.Plain ∧ right.Plain
  | .logical _ _ left right => left.Plain ∧ right.Plain
  | .var _ => True
  | .assign ref value => IsPlain ref.name.text ∧ value.Plain
  | .call callee arguments _ => callee.Plain ∧ Expr.PlainList arguments
  | .get object _ => object.Plain
  | .set object _ value => object.Plain ∧ value.Plain
  | .this _ _ => True
  | .super _ _ _ => True

/-- Several expressions assign to plain names only. -/
def Expr.PlainList : List Expr → Prop
  | [] => True
  | e :: rest => e.Plain ∧ Expr.PlainList rest

end

/-- An expression that may be missing assigns to plain names only. -/
def PlainOption : Option Expr → Prop
  | none => True
  | some e => e.Plain

mutual

/-- A statement declares and assigns to plain names only. -/
def Stmt.Plain : Stmt → Prop
  | .expression e => e.Plain
  | .print e => e.Plain
  | .varDecl name initializer => IsPlain name.text ∧ PlainOption initializer
  | .block body => Stmt.PlainList body
  | .branch condition yes none => condition.Plain ∧ yes.Plain
  | .branch condition yes (some no) => condition.Plain ∧ yes.Plain ∧ no.Plain
  | .loop condition body => condition.Plain ∧ body.Plain
  | .funDecl function => IsPlain function.name.text ∧ FunDecl.Plain function
  | .result _ value => PlainOption value
  | .classDecl name _ methods => IsPlain name.text ∧ FunDecl.PlainList methods

/-- Several statements declare and assign to plain names only. -/
def Stmt.PlainList : List Stmt → Prop
  | [] => True
  | s :: rest => s.Plain ∧ Stmt.PlainList rest

/-- A function has plain parameters, and so has its body. -/
def FunDecl.Plain : FunDecl → Prop
  | ⟨_, params, body⟩ => (∀ name ∈ params, IsPlain name.text) ∧ Stmt.PlainList body

/-- Several functions have plain parameters and bodies. -/
def FunDecl.PlainList : List FunDecl → Prop
  | [] => True
  | f :: rest => FunDecl.Plain f ∧ FunDecl.PlainList rest

end

/-- Each of several plain expressions is plain. -/
theorem Expr.PlainList.mem {es : List Expr} (h : Expr.PlainList es) : ∀ e ∈ es, e.Plain := by
  induction es with
  | nil => nofun
  | cons e rest ih => exact List.forall_mem_cons.2 ⟨h.1, ih h.2⟩

/-- Each of several plain statements is plain. -/
theorem Stmt.PlainList.mem {ss : List Stmt} (h : Stmt.PlainList ss) : ∀ s ∈ ss, s.Plain := by
  induction ss with
  | nil => nofun
  | cons s rest ih => exact List.forall_mem_cons.2 ⟨h.1, ih h.2⟩

/-- Each of several plain functions is plain. -/
theorem FunDecl.PlainList.mem {fs : List FunDecl} (h : FunDecl.PlainList fs) :
    ∀ f ∈ fs, FunDecl.Plain f := by
  induction fs with
  | nil => nofun
  | cons f rest ih => exact List.forall_mem_cons.2 ⟨h.1, ih h.2⟩

/-- The parameters of a plain function are plain names. -/
theorem FunDecl.Plain.params {f : FunDecl} (h : FunDecl.Plain f) :
    ∀ name ∈ f.params, IsPlain name.text := by
  cases f
  exact h.1

/-- So are the statements of its body. -/
theorem FunDecl.Plain.body {f : FunDecl} (h : FunDecl.Plain f) : ∀ s ∈ f.body, s.Plain := by
  cases f
  exact h.2.mem

namespace Grammar

/-- The trees of a phrase are plain. -/
def Phrase.IsPlain : Phrase → Prop
  | .primary e | .call e | .unary e | .operation _ e | .expression e => e.Plain
  | .list es | .arguments es => Expr.PlainList es

/-- An operator between plain operands gives a plain tree. -/
theorem Operator.plain_tree {op : Operator} {line : Nat} {a b : Expr} (ha : a.Plain)
    (hb : b.Plain) : (op.tree line a b).Plain := by
  cases op <;> exact ⟨ha, hb⟩

/-- A phrase of plain names has plain trees. -/
theorem Phrase.Derives.plain {p : Phrase} {n m : Nat} {ts : List Token} (h : p.Derives n ts m)
    (hts : PlainNames ts) : p.IsPlain := by
  induction h with
  | literal | name | this | super | noArguments => trivial
  | primary _ ih | operand _ ih | tightest _ ih | tighter _ ih | operation _ ih
  | someArguments _ ih => exact ih hts
  | group _ _ _ ih =>
    rw [PlainNames.cons, PlainNames.append] at hts
    exact ih hts.2.1
  | property _ _ _ ih => exact ih (PlainNames.append.1 hts).1
  | applied _ _ _ ih => exact ih (PlainNames.cons.1 hts).2
  | last _ ih => exact ⟨ih hts, trivial⟩
  | invocation _ _ _ _ _ ihe ihes =>
    rw [PlainNames.append, PlainNames.cons, PlainNames.append] at hts
    exact ⟨ihe hts.1, ihes hts.2.2.1⟩
  | more _ _ _ ihe ihes =>
    rw [PlainNames.append, PlainNames.cons] at hts
    exact ⟨ihe hts.1, ihes hts.2.2⟩
  | joined _ _ _ _ iha ihb =>
    rw [PlainNames.append, PlainNames.cons] at hts
    exact Operator.plain_tree (iha hts.1) (ihb hts.2.2)
  | assign ht _ _ ih =>
    rw [PlainNames.cons, PlainNames.cons] at hts
    exact ⟨hts.1 ht, ih hts.2.2⟩
  | set _ _ _ _ _ iho ihe =>
    rw [PlainNames.append, PlainNames.cons, PlainNames.cons, PlainNames.cons] at hts
    exact ⟨iho hts.1, ihe hts.2.2.2.2⟩

section Parts

variable {e : Expr} {value : Option Expr} {s : Stmt} {n m : Nat} {ts : List Token}

/-- An optional expression of plain names is plain. -/
theorem Optional.plain (h : Optional value n ts m) (hts : PlainNames ts) : PlainOption value := by
  cases h with
  | none => trivial
  | some h => exact h.plain hts

/-- A declaration of a variable with plain names is plain. -/
theorem Variable.plain (h : Variable s n ts m) (hts : PlainNames ts) : s.Plain := by
  cases h with
  | mk ht hvalue _ =>
    rw [PlainNames.cons, PlainNames.append] at hts
    refine ⟨hts.1 ht, ?_⟩
    cases hvalue with
    | none => trivial
    | some _ h => exact h.plain (PlainNames.cons.1 hts.2.1).2

/-- An expression with a semicolon behind it is plain if its names are. -/
theorem Plain.plain (h : Plain e n ts m) (hts : PlainNames ts) : e.Plain := by
  cases h with
  | mk h _ => exact h.plain (PlainNames.append.1 hts).1

/-- The body of a loop stays plain with an increment behind it. -/
theorem plain_followedBy {body : Stmt} (hb : body.Plain) (he : PlainOption value) :
    (followedBy body value).Plain := by
  cases value with
  | none => exact hb
  | some e => exact ⟨hb, he, trivial⟩

/-- A condition that is missing is a literal, which is plain. -/
theorem plain_condition (h : PlainOption value) : (value.getD (.literal (.bool true))).Plain := by
  cases value with
  | none => trivial
  | some e => exact h

/-- A loop stays plain with its first clause before it. -/
theorem plain_precededBy {loop : Stmt} {first : Option Stmt} (h : First first n ts m)
    (hts : PlainNames ts) (hl : loop.Plain) : (precededBy loop first).Plain := by
  cases h with
  | none => exact hl
  | varDecl _ h => exact ⟨h.plain (PlainNames.cons.1 hts).2, hl, trivial⟩
  | expression h => exact ⟨h.plain hts, hl, trivial⟩

end Parts

/-- The trees of a sentence are plain, and so is the name of a function. -/
def Sentence.IsPlain : Sentence → Prop
  | .declaration s | .statement _ s => s.Plain
  | .declarations ss => Stmt.PlainList ss
  | .function f => Lox.IsPlain f.name.text ∧ FunDecl.Plain f
  | .functions fs => FunDecl.PlainList fs

/-- Whatever tokens with plain names derive is plain. -/
theorem Sentence.Derives.plain {nearest : Bool} {p : Sentence} {n m : Nat} {ts : List Token}
    (h : p.Derives nearest n ts m) (hts : PlainNames ts) : p.IsPlain := by
  induction h with
  | statement _ ih => exact ih hts
  | varDecl _ h => exact h.plain (PlainNames.cons.1 hts).2
  | funDecl _ _ ih => exact ih (PlainNames.cons.1 hts).2
  | classDecl _ ht _ _ _ _ ih =>
    simp only [PlainNames.cons, PlainNames.append] at hts
    exact ⟨hts.2.1 ht, ih hts.2.2.2.2.1⟩
  | noMethods => trivial
  | noDeclarations => trivial
  | methods _ _ ihf ihfs =>
    rw [PlainNames.append] at hts
    exact ⟨(ihf hts.1).2, ihfs hts.2⟩
  | functionWithout ht _ _ _ _ _ ih =>
    simp only [PlainNames.cons, PlainNames.append] at hts
    exact ⟨hts.1 ht, nofun, ih hts.2.2.2.2.1⟩
  | functionWith ht _ hps _ _ _ _ _ ih =>
    simp only [PlainNames.cons, PlainNames.append] at hts
    exact ⟨hts.1 ht, hps.plain hts.2.2.1, ih hts.2.2.2.2.2.1⟩
  | declarations _ _ ihs ihss =>
    rw [PlainNames.append] at hts
    exact ⟨ihs hts.1, ihss hts.2⟩
  | expression h => exact h.plain hts
  | print _ h => exact h.plain (PlainNames.cons.1 hts).2
  | result _ h _ =>
    simp only [PlainNames.cons, PlainNames.append] at hts
    exact h.plain hts.2.1
  | block _ _ _ ih =>
    simp only [PlainNames.cons, PlainNames.append] at hts
    exact ih hts.2.1
  | branch _ _ he _ _ ih =>
    simp only [PlainNames.cons, PlainNames.append] at hts
    exact ⟨he.plain hts.2.2.1, ih hts.2.2.2.2⟩
  | branchElse _ _ he _ _ _ _ _ ihy ihn =>
    simp only [PlainNames.cons, PlainNames.append] at hts
    exact ⟨he.plain hts.2.2.1, ihy hts.2.2.2.2.1, ihn hts.2.2.2.2.2.2⟩
  | loop _ _ he _ _ ih =>
    simp only [PlainNames.cons, PlainNames.append] at hts
    exact ⟨he.plain hts.2.2.1, ih hts.2.2.2.2⟩
  | forLoop _ _ hf hc _ hi _ _ ih =>
    simp only [PlainNames.cons, PlainNames.append] at hts
    obtain ⟨-, -, hfirst, hcondition, -, hincrement, -, hbody⟩ := hts
    refine plain_precededBy hf hfirst ⟨plain_condition (hc.plain hcondition), ?_⟩
    exact plain_followedBy (ih hbody) (hi.plain hincrement)

end Grammar

/-- The trees of a source that is read without a diagnostic are plain. -/
theorem Program.plain_of_diagnostics {source : String} {n : Nat}
    (h : (Program.ofSource source n).diagnostics = []) :
    Stmt.PlainList (Program.ofSource source n).statements := by
  obtain ⟨ts, hs, hderives⟩ := Program.derives_of_diagnostics h
  exact hderives.plain hs.plainNames

end Lox
