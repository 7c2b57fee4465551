import Lox.Proofs.Loops.Agreement
import Lox.Proofs.Session.Consistency

/-!
# Sources whose `for` statements run by their clauses

Every `for` statement that the parser reads has the tree of its clauses, and a
source without static errors prints the same and ends the same way whether its
`for` statements run as their trees, with frames and distances, or by their
clauses.
-/

namespace Lox

/-! ### Clauses that are read -/

namespace Parse

variable {α β : Type}

/-- All that a parser yields has a property. -/
def Always (P : α → Prop) (p : Parse α) : Prop :=
  ∀ c a after, p c = .ok a after → P a

namespace Always

variable {P : β → Prop} {Q : α → Prop} {p : Parse α} {f : α → Parse β}

/-- A parser that takes nothing yields what it is given. -/
theorem pure {b : β} (h : P b) : Always P (pure b) := by
  intro c a after hrun
  cases hrun
  exact h

/-- What is always true of what the first parser yields may be used for the second one. -/
theorem bind (hp : Always Q p) (hf : ∀ a, Q a → Always P (f a)) : Always P (p >>= f) := by
  intro c b after hrun
  obtain ⟨a, between, ha, hb⟩ := bind_eq_ok hrun
  exact hf a (hp c a between ha) between b after hb

/-- What the second parser always yields does not depend on the first one. -/
theorem andThen (p : Parse α) (hf : ∀ a, Always P (f a)) : Always P (p >>= f) := by
  intro c b after hrun
  obtain ⟨a, between, -, hb⟩ := bind_eq_ok hrun
  exact hf a between b after hb

end Always

/-- A parser of declarations of variables yields nothing else. -/
theorem always_varDeclaration :
    Always (fun s => ∃ name value, s = .varDecl name value) varDeclaration :=
  .andThen _ fun name => .andThen _ fun value => .andThen _ fun _ => .pure ⟨name, value, rfl⟩

/-- A parser of expressions as statements yields nothing else. -/
theorem always_expressionStatement :
    Always (fun s => ∃ e, s = .expression e) expressionStatement :=
  .andThen _ fun e => .andThen _ fun _ => .pure ⟨e, rfl⟩

/-- What is read as the first clause of a `for` statement is one. -/
theorem always_forInitializer :
    Always (fun first => ∃ clause : FirstClause, clause.stmt? = first) forInitializer := by
  refine .andThen _ fun ended => ?_
  split
  · exact .pure ⟨.absent, rfl⟩
  refine .andThen _ fun found => ?_
  split
  · refine always_varDeclaration.bind (f := fun s => Pure.pure (some s)) ?_
    rintro s ⟨name, value, rfl⟩
    exact .pure ⟨.varDecl name value, rfl⟩
  · refine always_expressionStatement.bind (f := fun s => Pure.pure (some s)) ?_
    rintro s ⟨e, rfl⟩
    exact .pure ⟨.expression e, rfl⟩

/-- Where a statement is read there is no declaration. -/
theorem always_statementWithin (bound : Nat) :
    Always (fun s : Stmt => s.isStatement) (statementWithin bound) := by
  induction bound with
  | zero => exact fun c a after hrun => nomatch hrun
  | succ bound ih =>
    have helse : Always (fun no => ∀ s ∈ no, Stmt.isStatement s)
        (elseBranch (statementWithin bound)) := by
      refine .andThen _ fun found => ?_
      split
      · refine ih.bind (f := fun s => Pure.pure (some s)) fun s hs => .pure ?_
        exact fun t ht => Option.mem_some.1 ht ▸ hs
      · exact .pure nofun
    refine .andThen _ fun token => ?_
    split
    · refine .andThen _ fun _ => .andThen _ fun _ => .andThen _ fun first => ?_
      refine .andThen _ fun condition => .andThen _ fun _ => .andThen _ fun increment => ?_
      refine .andThen _ fun _ => ih.bind fun body hbody => .pure ?_
      exact isStatement_forLoop first condition increment hbody
    · refine .andThen _ fun _ => .andThen _ fun _ => .andThen _ fun condition => ?_
      refine .andThen _ fun _ => ih.bind fun yes hyes => helse.bind fun no hno => .pure ?_
      cases no with
      | none => exact hyes
      | some other => exact Bool.and_eq_true_iff.2 ⟨hyes, hno other rfl⟩
    · refine .andThen _ fun _ => .andThen _ fun _ => .andThen _ fun condition => ?_
      exact .andThen _ fun _ => ih.bind fun body hbody => .pure hbody
    · exact .andThen _ fun _ => .andThen _ fun value => .andThen _ fun _ => .pure rfl
    · exact .andThen _ fun _ => .andThen _ fun e => .andThen _ fun _ => .pure rfl
    · exact .andThen _ fun _ => .andThen _ fun body => .pure rfl
    · exact .andThen _ fun e => .andThen _ fun _ => .pure rfl

end Parse

open Parse in
/-- A `for` statement is read from one cursor to another behind its keyword: each of its
clauses and its body is what the parser of that part yields. -/
def ForStatement.ReadFrom (f : ForStatement) (bound : Nat) (c after : Cursor) : Prop :=
  ∃ opened c₁ c₂ c₃ ended c₄ c₅ closed c₆,
    expect .leftParen "'(' after 'for'" c = .ok opened c₁ ∧
    forInitializer c₁ = .ok f.first.stmt? c₂ ∧
    expressionUnless .semicolon c₂ = .ok f.condition c₃ ∧
    expect .semicolon "';' after loop condition" c₃ = .ok ended c₄ ∧
    expressionUnless .rightParen c₄ = .ok f.increment c₅ ∧
    expect .rightParen "')' after for clauses" c₅ = .ok closed c₆ ∧
    statementWithin bound c₆ = .ok f.body after

/-- What is read as a `for` statement is the tree of the clauses that are read. -/
theorem exists_readFrom_of_forStatement {bound : Nat} {c after : Cursor} {s : Stmt}
    (h : Parse.forStatement (Parse.statementWithin bound) c = .ok s after) :
    ∃ f : ForStatement, f.tree = s ∧ f.ReadFrom bound c after := by
  obtain ⟨opened, c₁, hopened, h⟩ := bind_eq_ok h
  obtain ⟨first, c₂, hfirst, h⟩ := bind_eq_ok h
  obtain ⟨condition, c₃, hcondition, h⟩ := bind_eq_ok h
  obtain ⟨ended, c₄, hended, h⟩ := bind_eq_ok h
  obtain ⟨increment, c₅, hincrement, h⟩ := bind_eq_ok h
  obtain ⟨closed, c₆, hclosed, h⟩ := bind_eq_ok h
  obtain ⟨body, c₇, hbody, h⟩ := bind_eq_ok h
  cases h
  have hstatement := Parse.always_statementWithin bound c₆ body after hbody
  obtain ⟨clause, rfl⟩ := Parse.always_forInitializer c₁ first c₂ hfirst
  exact ⟨⟨clause, condition, increment, body, hstatement⟩, rfl, opened, c₁, c₂, c₃, ended, c₄, c₅,
    closed, c₆, hopened, hfirst, hcondition, hended, hincrement, hclosed, hbody⟩

/-! ### Machines with frames -/

/-- A step that matches one also matches what completes it. -/
theorem Sim.completes {α β : Type} {table : Table} {w : Layout} {env : Env} {G : Layout → Prop}
    {A : Layout → α → β → Prop} {p : Eval α} {q q' : Lexical β} (h : Sim table w env G A p q)
    (hq : Lexical.Completes q q') : Sim table w env G A p q' := by
  intro m l henv hrel
  have hmatches := h m l henv hrel
  rcases hmatches.inversion with
    ⟨m', hp⟩ | ⟨_, _, _, _, -, hok, -⟩ | ⟨_, _, _, _, -, herror, ⟨e, -, rfl⟩, -⟩
  · rw [hp]
    exact Matches.exhausted m' (q' l)
  · rw [hq.eq_of_ends hok nofun, ← hok]
    exact hmatches
  · rw [hq.eq_of_ends herror nofun, ← herror]
    exact hmatches

/-- A resolved `for` statement on a machine with frames does what its clauses say on a
machine with cells. -/
theorem sim_forStatement (reading : LoopReading) {table : Table} {K : Known} {w : Layout}
    {Γ : Context} {env : Env} {locals : Locals} (hK : K.Within table) (hst : Stands w Γ env locals)
    (f : ForStatement) (hf : f.tree.Resolved K Γ) {fuel fuel' : Nat} (hle : fuel ≤ fuel') :
    Sim table w env (Layout.Grows env.innermost w)
      (FlowRel table fun w' => Stands w' (Γ.after f.tree) env) (Eval.execute fuel f.tree)
      (Loops.executeFor (Loops.evaluate reading fuel') (Loops.execute reading fuel') fuel'
        locals f) :=
  ((evaluates_executes table hle).2 hK hst hf).completes
    (Loops.completes_forStatement reading (Nat.le_refl fuel') locals f)

/-- A source without static errors, run with its `for` statements by their clauses. -/
theorem run_agrees_clauses (reading : LoopReading) (sink : Sink) (clock : Nat → Float)
    (source : String) {fuel fuel' : Nat} (hle : fuel ≤ fuel')
    (hread : (Program.ofSource source 0).diagnostics = [])
    (hresolve : (resolveProgram (Program.ofSource source 0).statements).errors = [])
    (hinit : Program.assignsOwnInitializer source = false)
    (hends : ∀ after, Session.run fuel source (.initial sink clock) ≠ .error .exhausted after) :
    ∃ after l, Session.run fuel source (.initial sink clock) = .ok () after ∧
      (∃ table w, Related table w after.machine l) ∧
      (after.pending = [] ∧
          Loops.executeProgram reading fuel' (Program.ofSource source 0).statements
            (.initial sink clock) = .ok () l ∨
        ∃ e, after.pending = [.runtime e] ∧
          Loops.executeProgram reading fuel' (Program.ofSource source 0).statements
            (.initial sink clock) = .error (.error e) l) := by
  have hresolved := Session.resolvedList_resolved (Session.consistent_initial sink clock) hread
    hresolve hinit
  have hrel : Related ((Session.initial sink clock).resolved source).table Layout.initial
      ((Session.initial sink clock).resolved source).machine (.initial sink clock) :=
    (related_initial sink clock).within ⟨Nat.zero_le _, fun _ h => absurd h (Nat.not_lt_zero _)⟩
  have hknown : ((Session.initial sink clock).resolved source).known.Within
      ((Session.initial sink clock).resolved source).table := fun _ _ hd => hd
  have hclauses := Loops.completes_executeProgram reading (Nat.le_refl fuel')
    (Program.ofSource source 0).statements
  rw [Session.run_of_clean fuel source (.initial sink clock) rfl hread hresolve] at hends ⊢
  unfold Session.execute at hends ⊢
  rcases executeProgram_agrees hrel rfl hknown hle hresolved with
    ⟨m', hm⟩ | ⟨m', l', ⟨w', hrel'⟩, -, ⟨hm, hl⟩ | ⟨e, hm, hl⟩⟩
  · rw [hm] at hends
    exact absurd rfl (hends _)
  · rw [hm]
    exact ⟨_, l', rfl, ⟨_, w', hrel'⟩, .inl ⟨rfl, hclauses.eq_of_ends hl nofun⟩⟩
  · rw [hm]
    exact ⟨_, l', rfl, ⟨_, w', hrel'⟩, .inr ⟨e, rfl, hclauses.eq_of_ends hl nofun⟩⟩

/-- **A `for` statement does what its clauses say.** Every `for` statement that the parser
accepts is the tree of the clauses that it read, whichever of them are there. Wherever its
tree is resolved, a run of the tree that ends has the effects and the result of the
clauses: the next statement, a value that is returned or an error. So a source without
static errors, whose local variables are not assigned to by their own initializers, ends
with the same effects and in the same way, whichever of its loops run by their clauses. -/
theorem for_statement_runs_clauses (reading : LoopReading) :
    (∀ (bound : Nat) (c : Cursor) (s : Stmt) (after : Cursor),
      Parse.forStatement (Parse.statementWithin bound) c = .ok s after →
        (LoopReading.widest.find? s).isSome ∧
          ∃ f : ForStatement, f.tree = s ∧ f.ReadFrom bound c after) ∧
    (∀ (f : ForStatement) (table : Table) (K : Known) (w : Layout) (Γ : Context) (env : Env)
      (locals : Locals) (fuel fuel' : Nat),
      fuel ≤ fuel' → K.Within table → Stands w Γ env locals → f.tree.Resolved K Γ →
        Sim table w env (Layout.Grows env.innermost w)
          (FlowRel table fun w' => Stands w' (Γ.after f.tree) env) (Eval.execute fuel f.tree)
          (Loops.executeFor (Loops.evaluate reading fuel') (Loops.execute reading fuel') fuel'
            locals f)) ∧
    ∀ (sink : Sink) (clock : Nat → Float) (source : String) (fuel fuel' : Nat),
      fuel ≤ fuel' →
      (Program.ofSource source 0).diagnostics = [] →
      (resolveProgram (Program.ofSource source 0).statements).errors = [] →
      Program.assignsOwnInitializer source = false →
      (∀ after, Session.run fuel source (.initial sink clock) ≠ .error .exhausted after) →
        ∃ after l, Session.run fuel source (.initial sink clock) = .ok () after ∧
          after.machine.sink = l.sink ∧ (∃ table w, Related table w after.machine l) ∧
          (after.pending = [] ∧
              Loops.executeProgram reading fuel' (Program.ofSource source 0).statements
                (.initial sink clock) = .ok () l ∨
            ∃ e, after.pending = [.runtime e] ∧
              Loops.executeProgram reading fuel' (Program.ofSource source 0).statements
                (.initial sink clock) = .error (.error e) l) := by
  refine ⟨?_, ?_, ?_⟩
  · intro bound c s after h
    obtain ⟨f, rfl, hfrom⟩ := exists_readFrom_of_forStatement h
    exact ⟨LoopReading.isSome_widest_tree f, f, rfl, hfrom⟩
  · intro f table K w Γ env locals fuel fuel' hle hK hst hf
    exact sim_forStatement reading hK hst f hf hle
  · intro sink clock source fuel fuel' hle hread hresolve hinit hends
    obtain ⟨after, l, hrun, ⟨table, w, hrel⟩, hend⟩ :=
      run_agrees_clauses reading sink clock source hle hread hresolve hinit hends
    exact ⟨after, l, hrun, hrel.sink, ⟨table, w, hrel⟩, hend⟩

/-- A loop without a condition that a return leaves, and one over a global variable whose
body is a loop without clauses that fails. -/
theorem for_statement_runs_clauses_nested :
    let source := "fun f() \x7b for (var s = \"a\"; ; s = s + \"a\") if (s == \"aa\") return s; \x7d
      var t; for (t = f(); t; t = nil) for (;;) print t - t;"
    ((Program.ofSource source 0).statements.filter
      (LoopReading.widest.find? · |>.isSome)).length = 1 ∧
    (∀ after, Session.run 20 source (.initial .unbounded fun _ => 0) ≠
      .error .exhausted after) ∧
    ∃ after l, Session.run 20 source (.initial .unbounded fun _ => 0) = .ok () after ∧
      after.machine.sink = l.sink ∧ (∃ table w, Related table w after.machine l) ∧
      (after.pending = [] ∧
          Loops.executeProgram .widest 20 (Program.ofSource source 0).statements
            (.initial .unbounded fun _ => 0) = .ok () l ∨
        ∃ e, after.pending = [.runtime e] ∧
          Loops.executeProgram .widest 20 (Program.ofSource source 0).statements
            (.initial .unbounded fun _ => 0) = .error (.error e) l) := by
  intro source
  obtain ⟨hloops, hread, hresolve, hinit, hfinished⟩ :
      ((Program.ofSource source 0).statements.filter
        (LoopReading.widest.find? · |>.isSome)).length = 1 ∧
      (Program.ofSource source 0).diagnostics = [] ∧
      (resolveProgram (Program.ofSource source 0).statements).errors = [] ∧
      Program.assignsOwnInitializer source = false ∧
      (Session.finished? (Session.run 20 source (.initial .unbounded fun _ => 0))).isSome := by
    decide +kernel
  have hends := Session.ne_exhausted_of_finished? hfinished
  exact ⟨hloops, hends, (for_statement_runs_clauses .widest).2.2 .unbounded (fun _ => 0) source
    20 20 (Nat.le_refl 20) hread hresolve hinit hends⟩

end Lox
