import Lox.Proofs.Source
import Lox.Proofs.Scope.Late

/-!
# What trees look like

The trees that are read have names that are no keywords, and where the grammar
has room for a statement only, there is no declaration. This holds of all trees
that are read, whatever else is wrong with the source: a declaration is either
read to its end or dropped.
-/

namespace Lox

mutual

/-- Whether all declared names are plain and nothing is declared in the branches of
a choice or as the body of a loop. -/
def Stmt.Proper : Stmt → Prop
  | .expression _ => True
  | .print _ => True
  | .varDecl name _ => IsPlain name.text
  | .block body => Stmt.ProperList body
  | .branch _ yes none => yes.declared = [] ∧ yes.Proper
  | .branch _ yes (some no) =>
    (yes.declared = [] ∧ yes.Proper) ∧ no.declared = [] ∧ no.Proper
  | .loop _ body => body.declared = [] ∧ body.Proper
  | .funDecl function => IsPlain function.name.text ∧ FunDecl.Proper function
  | .result _ _ => True
  | .classDecl name _ methods => IsPlain name.text ∧ FunDecl.ProperList methods

/-- Whether several statements are proper. -/
def Stmt.ProperList : List Stmt → Prop
  | [] => True
  | s :: rest => s.Proper ∧ Stmt.ProperList rest

/-- Whether the parameters and the body of a function are proper. -/
def FunDecl.Proper : FunDecl → Prop
  | ⟨_, params, body⟩ => (∀ name ∈ params, IsPlain name.text) ∧ Stmt.ProperList body

/-- Whether several functions are proper. -/
def FunDecl.ProperList : List FunDecl → Prop
  | [] => True
  | f :: rest => FunDecl.Proper f ∧ FunDecl.ProperList rest

end

/-- A statement that is read where no declaration may stand. -/
def Stmt.ProperStatement (s : Stmt) : Prop := s.declared = [] ∧ s.Proper

/-- Proper statements may be put behind one another. -/
theorem Stmt.ProperList.append {first second : List Stmt} (h : Stmt.ProperList first)
    (h' : Stmt.ProperList second) : Stmt.ProperList (first ++ second) := by
  induction first with
  | nil => exact h'
  | cons s rest ih => exact ⟨h.1, ih h.2⟩

/-- A proper statement that may be missing is one statement or none. -/
theorem Stmt.ProperList.toList {o : Option Stmt} (h : ∀ s ∈ o, Stmt.Proper s) :
    Stmt.ProperList o.toList := by
  cases o with
  | none => trivial
  | some s => exact ⟨h s rfl, trivial⟩

/-- The tokens ahead of a cursor, as scanning leaves them. -/
structure Cursor.Fair (c : Cursor) : Prop where
  /-- The end of the input is a token of its own kind. -/
  finish : c.finish.isFinish
  /-- Identifiers are no keywords. -/
  plain : Grammar.PlainNames c.ahead

/-- A parser leaves a fair cursor behind, since it only takes tokens from the front. -/
theorem Cursor.Fair.advances {c after : Cursor} (h : c.Fair) (hadv : c.Advances after) :
    after.Fair :=
  ⟨hadv.finish ▸ h.finish, fun t ht => h.plain t (hadv.ahead.subset ht)⟩

namespace Parse

open Grammar

variable {α β : Type}

/-- All that a parser yields has a property, whatever is ahead. -/
def Yields (P : α → Prop) (p : Parse α) : Prop := ∀ c : Cursor, c.Fair →
  match p c with
  | .ok a after => P a ∧ after.Fair
  | .error _ after => after.Fair

/-- A parser of which nothing is said but that its cursor moves forward. -/
theorem Reads.yields {p : Parse α} {R : α → Nat → List Token → Nat → List Token → Prop}
    (hp : Reads p R) : Yields (fun _ => True) p := by
  intro c hc
  have hr := hp c hc.finish
  revert hr
  cases p c with
  | ok a after => exact fun hr => ⟨trivial, hc.advances hr.1⟩
  | error e after => exact hc.advances

namespace Yields

variable {P : α → Prop} {Q : β → Prop} {p q : Parse α} {k : α → Parse β}

/-- A parser that takes nothing yields what it is given. -/
theorem pure {a : α} (h : P a) : Yields P (Pure.pure a) := fun _ hc => ⟨h, hc⟩

/-- What is known of what the first parser yields may be used for the second one. -/
theorem bind (hp : Yields P p) (hk : ∀ a, P a → Yields Q (k a)) : Yields Q (p >>= k) := by
  intro c hc
  have hfirst := hp c hc
  rw [bind_apply]
  revert hfirst
  cases p c with
  | error e after => exact id
  | ok a after => exact fun hfirst => hk a hfirst.1 after hfirst.2

/-- Like `bind`, for a first parser of which nothing is said. -/
theorem andThen (hp : Yields (fun _ => True) p) (hk : ∀ a, Yields Q (k a)) : Yields Q (p >>= k) :=
  hp.bind fun a _ => hk a

/-- What is built of what a parser yields has the property that it is built with. -/
theorem map (hp : Yields P p) (f : α → β) (h : ∀ a, P a → Q (f a)) : Yields Q (f <$> p) := by
  rw [map_eq_pure_bind]
  exact hp.bind fun a ha => .pure (h a ha)

/-- Whichever of two parsers is chosen, it yields what both of them do. -/
theorem ite {b : Bool} (hp : Yields P p) (hq : Yields P q) : Yields P (if b then p else q) := by
  cases b with
  | true => exact hp
  | false => exact hq

end Yields

/-- A parser that fails yields nothing. -/
theorem yields_fail (P : α → Prop) (cause : SyntaxCause) : Yields P (fail cause) :=
  fun _ hc => hc

/-- A symbol that has to be there is taken from a fair cursor. -/
theorem yields_expect (symbol : Symbol) (what : String) :
    Yields (fun _ => True) (expect symbol what) :=
  (reads_expect symbol what).yields

/-- A symbol that may be there is taken from a fair cursor. -/
theorem yields_accept (symbol : Symbol) : Yields (fun _ => True) (accept symbol) :=
  (reads_accept symbol).yields

/-- An expression declares nothing, so nothing is asked of it. -/
theorem yields_expression : Yields (fun _ => True) Parse.expression := reads_expression.yields

/-- A name that is read was scanned as a name. -/
theorem yields_expectName (what : String) :
    Yields (fun name => IsPlain name.text) (expectName what) := by
  rintro ⟨ahead, finish, nextId, errors⟩ hc
  cases ahead with
  | nil => exact hc
  | cons t rest =>
    have hrest : Cursor.Fair ⟨rest, finish, nextId, errors⟩ :=
      ⟨hc.finish, fun u hu => hc.plain u (List.mem_cons_of_mem _ hu)⟩
    unfold expectName expectMap acceptMap
    rw [bind_apply]
    simp only [modifyGet_apply]
    cases hname : nameOf? t with
    | none => exact hc
    | some name =>
      obtain ⟨hkind, rfl⟩ := nameOf?_eq_some hname
      exact ⟨hc.plain t (List.mem_cons_self ..) hkind, hrest⟩

/-- A declaration that fails is dropped. -/
theorem yields_recover {P : α → Prop} {p : Parse α} (hp : Yields P p) :
    Yields (fun o => ∀ a ∈ o, P a) (recover p) := by
  intro c hc
  have hresult := hp c hc
  unfold recover
  revert hresult
  cases p c with
  | ok a after => exact fun hresult => ⟨fun b hb => Option.mem_some.1 hb ▸ hresult.1, hresult.2⟩
  | error e after =>
    intro hresult
    exact ⟨nofun, hresult.finish,
      fun t ht => hresult.plain t ((synchronize_suffix _).subset ht)⟩

/-! ### Statements -/

/-- A declared variable has a plain name. -/
theorem yields_varDeclaration : Yields Stmt.Proper varDeclaration := by
  refine (yields_expectName _).bind fun name hname => ?_
  refine reads_initialValue.yields.andThen fun initializer => ?_
  exact (yields_expect _ _).andThen fun _ => .pure hname

/-- An expression as a statement declares nothing. -/
theorem yields_expressionStatement : Yields Stmt.ProperStatement expressionStatement := by
  refine yields_expression.andThen fun e => ?_
  exact (yields_expect _ _).andThen fun _ => .pure ⟨rfl, trivial⟩

/-- The parameters of a function have plain names. -/
theorem yields_parameterList (fuel count : Nat) :
    Yields (fun names => ∀ name ∈ names, IsPlain name.text) (parameterList fuel count) := by
  induction fuel generalizing count with
  | zero => exact yields_fail _ _
  | succ fuel ih =>
    refine (reads_reportSurplus "parameters" count).yields.andThen fun _ => ?_
    refine (yields_expectName _).bind fun name hname => ?_
    refine (yields_accept .comma).andThen fun found => .ite ?_ (.pure ?_)
    · refine (ih (count + 1)).bind fun names hnames => .pure ?_
      exact List.forall_mem_cons.2 ⟨hname, hnames⟩
    · exact List.forall_mem_singleton.2 hname

/-- The parameters between the parentheses of a function have plain names. -/
theorem yields_parameters :
    Yields (fun names => ∀ name ∈ names, IsPlain name.text) parameters := by
  refine (reads_check .rightParen).yields.andThen fun found => .ite (.pure nofun) ?_
  exact reads_remaining.yields.andThen fun bound => yields_parameterList (bound + 1) 0

/-- The first clause of a `for` statement may be a declaration, with a plain name. -/
theorem yields_forInitializer : Yields (fun o => ∀ s ∈ o, Stmt.Proper s) forInitializer := by
  have hsome (s : Stmt) (hs : s.Proper) : ∀ t ∈ some s, t.Proper :=
    fun t ht => Option.mem_some.1 ht ▸ hs
  refine (yields_accept .semicolon).andThen fun _ => .ite (.pure nofun) ?_
  refine (yields_accept .varWord).andThen fun _ => .ite ?_ ?_
  · exact yields_varDeclaration.map some hsome
  · exact yields_expressionStatement.map some fun s hs => hsome s hs.2

/-- The loop that stands for a `for` statement is a statement: a variable of its first
clause is declared in a block. -/
theorem Stmt.ProperStatement.forLoop {initializer : Option Stmt} {body : Stmt}
    (hi : ∀ s ∈ initializer, Stmt.Proper s) (hb : body.ProperStatement)
    (condition increment : Option Expr) :
    (forLoop initializer condition increment body).ProperStatement := by
  cases initializer with
  | none =>
    cases increment with
    | none => exact ⟨rfl, hb⟩
    | some e => exact ⟨rfl, rfl, hb.2, trivial, trivial⟩
  | some first =>
    have hfirst := hi first rfl
    cases increment with
    | none => exact ⟨rfl, hfirst, hb, trivial⟩
    | some e => exact ⟨rfl, hfirst, ⟨rfl, hb.2, trivial, trivial⟩, trivial⟩

section Statements

variable {declaration : Parse (Option Stmt)} {statement : Parse Stmt}

/-- Declarations that stand one after the other are proper, also where some between them
were dropped. -/
theorem yields_declarationList (hd : Yields (fun o => ∀ s ∈ o, Stmt.Proper s) declaration)
    (fuel : Nat) : Yields Stmt.ProperList (declarationList declaration fuel) := by
  induction fuel with
  | zero => exact .pure trivial
  | succ fuel ih =>
    refine (reads_check .rightBrace).yields.andThen fun closed => ?_
    refine reads_atEnd.yields.andThen fun ended => .ite (.pure trivial) ?_
    refine hd.bind fun first hfirst => ih.bind fun rest hrest => .pure ?_
    exact (Stmt.ProperList.toList hfirst).append hrest

/-- The declarations of a block are proper. -/
theorem yields_block (hd : Yields (fun o => ∀ s ∈ o, Stmt.Proper s) declaration) :
    Yields Stmt.ProperList (block declaration) := by
  refine reads_remaining.yields.andThen fun fuel => ?_
  refine (yields_declarationList hd fuel).bind fun body hbody => ?_
  exact (yields_expect _ _).andThen fun _ => .pure hbody

/-- A function has a plain name and plain parameters, and its body is proper. -/
theorem yields_function (hd : Yields (fun o => ∀ s ∈ o, Stmt.Proper s) declaration)
    (kind : String) :
    Yields (fun f => IsPlain f.name.text ∧ FunDecl.Proper f) (function declaration kind) := by
  refine (yields_expectName _).bind fun name hname => ?_
  refine (yields_expect _ _).andThen fun _ => ?_
  refine yields_parameters.bind fun params hparams => ?_
  refine (yields_expect _ _).andThen fun _ => ?_
  refine (yields_expect _ _).andThen fun _ => ?_
  exact (yields_block hd).bind fun body hbody => .pure ⟨hname, hparams, hbody⟩

/-- The methods of a class have proper parameters and bodies. -/
theorem yields_methodList (hd : Yields (fun o => ∀ s ∈ o, Stmt.Proper s) declaration)
    (fuel : Nat) : Yields FunDecl.ProperList (methodList declaration fuel) := by
  induction fuel with
  | zero => exact .pure trivial
  | succ fuel ih =>
    refine (reads_check .rightBrace).yields.andThen fun closed => ?_
    refine reads_atEnd.yields.andThen fun ended => .ite (.pure trivial) ?_
    exact (yields_function hd _).bind fun f hf => ih.bind fun rest hrest => .pure ⟨hf.2, hrest⟩

/-- A class has a plain name. -/
theorem yields_classDeclaration (hd : Yields (fun o => ∀ s ∈ o, Stmt.Proper s) declaration) :
    Yields Stmt.Proper (classDeclaration declaration) := by
  refine (yields_expectName _).bind fun name hname => ?_
  refine reads_superclassClause.yields.andThen fun parent => ?_
  refine (yields_expect _ _).andThen fun _ => ?_
  refine reads_remaining.yields.andThen fun fuel => ?_
  refine (yields_methodList hd fuel).bind fun methods hmethods => ?_
  exact (yields_expect _ _).andThen fun _ => .pure ⟨hname, hmethods⟩

/-- What follows `else` is a statement. -/
theorem yields_elseBranch (hs : Yields Stmt.ProperStatement statement) :
    Yields (fun o => ∀ s ∈ o, Stmt.ProperStatement s) (elseBranch statement) := by
  refine (yields_accept .elseWord).andThen fun _ => .ite ?_ (.pure nofun)
  exact hs.map some fun s hproper t ht => Option.mem_some.1 ht ▸ hproper

/-- The branches of an `if` statement are statements. -/
theorem yields_ifStatement (hs : Yields Stmt.ProperStatement statement) :
    Yields Stmt.ProperStatement (ifStatement statement) := by
  refine (yields_expect _ _).andThen fun _ => yields_expression.andThen fun condition => ?_
  refine (yields_expect _ _).andThen fun _ => hs.bind fun yes hyes => ?_
  refine (yields_elseBranch hs).bind fun no hno => .pure ⟨rfl, ?_⟩
  cases no with
  | none => exact hyes
  | some other => exact ⟨hyes, hno other rfl⟩

/-- The body of a `while` statement is a statement. -/
theorem yields_whileStatement (hs : Yields Stmt.ProperStatement statement) :
    Yields Stmt.ProperStatement (whileStatement statement) := by
  refine (yields_expect _ _).andThen fun _ => yields_expression.andThen fun condition => ?_
  exact (yields_expect _ _).andThen fun _ => hs.bind fun body hbody => .pure ⟨rfl, hbody⟩

/-- The body of a `for` statement is a statement, and so is the whole of it. -/
theorem yields_forStatement (hs : Yields Stmt.ProperStatement statement) :
    Yields Stmt.ProperStatement (forStatement statement) := by
  refine (yields_expect _ _).andThen fun _ => ?_
  refine yields_forInitializer.bind fun initializer hinitializer => ?_
  refine (reads_expressionUnless _).yields.andThen fun condition => ?_
  refine (yields_expect _ _).andThen fun _ => ?_
  refine (reads_expressionUnless _).yields.andThen fun increment => ?_
  refine (yields_expect _ _).andThen fun _ => hs.bind fun body hbody => .pure ?_
  exact Stmt.ProperStatement.forLoop hinitializer hbody condition increment

/-- Where a statement has to stand, nothing is declared. -/
theorem yields_statementWith (hd : Yields (fun o => ∀ s ∈ o, Stmt.Proper s) declaration)
    (hs : Yields Stmt.ProperStatement statement) :
    Yields Stmt.ProperStatement (statementWith declaration statement) := by
  have hadvance := reads_advance.yields
  refine reads_peek.yields.andThen fun token => ?_
  split
  · exact hadvance.andThen fun _ => yields_forStatement hs
  · exact hadvance.andThen fun _ => yields_ifStatement hs
  · exact hadvance.andThen fun _ => yields_whileStatement hs
  · refine hadvance.andThen fun _ => (reads_expressionUnless _).yields.andThen fun value => ?_
    exact (yields_expect _ _).andThen fun _ => .pure ⟨rfl, trivial⟩
  · refine hadvance.andThen fun _ => yields_expression.andThen fun e => ?_
    exact (yields_expect _ _).andThen fun _ => .pure ⟨rfl, trivial⟩
  · exact hadvance.andThen fun _ => (yields_block hd).map _ fun body hbody => ⟨rfl, hbody⟩
  · exact yields_expressionStatement

/-- What is declared has a plain name, in each kind of declaration. -/
theorem yields_declarationWith (hd : Yields (fun o => ∀ s ∈ o, Stmt.Proper s) declaration)
    (hs : Yields Stmt.ProperStatement statement) :
    Yields Stmt.Proper (declarationWith declaration statement) := by
  have hadvance := reads_advance.yields
  refine reads_peek.yields.andThen fun token => ?_
  split
  · exact hadvance.andThen fun _ => yields_classDeclaration hd
  · exact hadvance.andThen fun _ => (yields_function hd _).map _ fun f hf => hf
  · exact hadvance.andThen fun _ => yields_varDeclaration
  · exact fun c hc => by
      have hstatement := yields_statementWith hd hs c hc
      revert hstatement
      cases statementWith declaration statement c with
      | ok s after => exact fun hstatement => ⟨hstatement.1.2, hstatement.2⟩
      | error e after => exact id

end Statements

/-- Statements declare nothing and declarations are proper, however deep they may nest. -/
theorem yields_within (bound : Nat) :
    Yields Stmt.ProperStatement (statementWithin bound) ∧
      Yields (fun o => ∀ s ∈ o, Stmt.Proper s) (declarationWithin bound) := by
  induction bound with
  | zero => exact ⟨yields_fail _ _, yields_recover (yields_fail _ _)⟩
  | succ bound ih =>
    exact ⟨yields_statementWith ih.2 ih.1, yields_recover (yields_declarationWith ih.2 ih.1)⟩

/-- The statements that are left of a program are proper. -/
theorem yields_programList (fuel : Nat) : Yields Stmt.ProperList (programList fuel) := by
  induction fuel with
  | zero => exact .pure trivial
  | succ fuel ih =>
    refine reads_atEnd.yields.andThen fun ended => .ite (.pure trivial) ?_
    have hdeclaration : Yields (fun o => ∀ s ∈ o, Stmt.Proper s) declaration :=
      reads_remaining.yields.andThen fun bound => (yields_within bound).2
    refine hdeclaration.bind fun first hfirst => ih.bind fun rest hrest => .pure ?_
    exact (Stmt.ProperList.toList hfirst).append hrest

/-- A program is proper, whatever is wrong with its tokens. -/
theorem yields_program : Yields Stmt.ProperList program :=
  reads_remaining.yields.andThen fun fuel => yields_programList fuel

end Parse

open Grammar in
/-- Names among the tokens of a source are plain, whatever else is in the source. -/
theorem plainNames_scan (source : String) : PlainNames (Item.tokens (scan source)) := by
  obtain ⟨items, hitems, hproper, -⟩ := scanFrom_eq source.toList 1
  have hscan : scan source = items ++ [.token (Token.finishAt (1 + lineBreaks source.toList))] :=
    hitems
  intro t ht hkind
  rw [hscan, Item.tokens, List.filterMap_append, List.mem_append] at ht
  rcases ht with ht | ht
  · obtain ⟨item, hitem, hsome⟩ := List.mem_filterMap.1 ht
    cases item with
    | token u =>
      have htoken := Option.some.inj hsome
      exact htoken ▸ (hproper u hitem).plain (htoken ▸ hkind)
    | bad line cause => cases hsome
  · rw [List.mem_singleton.1 ht] at hkind
    cases hkind

/-- All trees that are read are proper. -/
theorem Program.proper (source : String) (n : Nat) :
    Stmt.ProperList (Program.ofSource source n).statements := by
  have hplain := plainNames_scan source
  have hfair : (Cursor.ofTokens (Item.tokens (scan source)) n).Fair :=
    ⟨Cursor.isFinish_ofTokens _ n, fun t ht => hplain t (List.takeWhile_subset _ ht)⟩
  have hyields := Parse.yields_program _ hfair
  change Stmt.ProperList (parseTokens (Item.tokens (scan source)) n).statements
  unfold parseTokens
  revert hyields
  cases Parse.program (Cursor.ofTokens (Item.tokens (scan source)) n) with
  | ok ss after => exact fun hyields => hyields.1
  | error e after => exact fun _ => trivial

end Lox
