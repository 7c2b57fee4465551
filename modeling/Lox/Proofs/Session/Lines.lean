import Lox.Proofs.Evaluation.Lines
import Lox.Proofs.Scope.Errors
import Lox.Proofs.Session.Truncation

/-!
# Every diagnostic points into its source

All that is reported about a source, run once in a new session, is reported on one of its
lines. Lexical errors have the line on which their piece ends. All other diagnostics have
the line of a token: syntax errors are reported at tokens, scope errors at words of the
tree that was read, and runtime errors on lines of trees, which are over the tokens of the
source whether they are run at once or by a function that was declared long before. The
one exception is the print of a literal that is refused, since a literal has no line.
-/

namespace Lox

/-! ### Lines of items -/

/-- The line of a token, or the one on which a piece that is no token ends. -/
def Item.line : Item → Nat
  | .token t => t.line
  | .bad line _ => line

/-- Items are on the lines of their text. -/
theorem line_of_mem_scanFrom (text : List Char) {line : Nat} :
    ∀ item ∈ scanFrom line text, line ≤ item.line ∧ item.line ≤ line + lineBreaks text := by
  induction text using pieces_induction generalizing line with
  | nil =>
    intro item hitem
    rw [scanFrom, List.mem_singleton] at hitem
    rw [hitem]
    exact ⟨Nat.le_refl _, Nat.le_refl _⟩
  | cons c rest ih =>
    intro item hitem
    rw [scanFrom_cons] at hitem
    generalize hfirst : firstPiece c rest = first at hitem ih
    have hbreaks := lineBreaks_cons_take c rest first.2
    rcases List.mem_append.1 hitem with hitem | hitem
    · have hline : item.line = line + lineBreaks (c :: rest.take first.2) := by
        cases hpiece : first.1 with
        | trivia =>
          rw [hpiece] at hitem
          cases hitem
        | token kind =>
          rw [hpiece] at hitem
          rw [List.mem_singleton.1 hitem, Item.line]
        | bad cause =>
          rw [hpiece] at hitem
          rw [List.mem_singleton.1 hitem, Item.line]
      omega
    · have hlater := ih item hitem
      omega

/-- All items of a source are on its lines. -/
theorem line_of_mem_scan {source : String} {item : Item} (h : item ∈ scan source) :
    1 ≤ item.line ∧ item.line ≤ 1 + lineBreaks source.toList :=
  line_of_mem_scanFrom source.toList item h

/-- A token is one of the items it was taken from. -/
theorem Item.token_mem_of_mem_tokens {items : List Item} {t : Token} (h : t ∈ Item.tokens items) :
    Item.token t ∈ items := by
  obtain ⟨item, hitem, hsome⟩ := List.mem_filterMap.1 h
  cases item with
  | token u =>
    cases hsome
    exact hitem
  | bad line cause => cases hsome

/-- The line of a token is one of the lines of its source. -/
theorem IsLineOf.bounds {source : String} {line : Nat}
    (h : IsLineOf (· ∈ Item.tokens (scan source)) line) :
    1 ≤ line ∧ line ≤ 1 + lineBreaks source.toList := by
  obtain ⟨t, ht, rfl⟩ := h
  exact line_of_mem_scan (Item.token_mem_of_mem_tokens ht)

/-- The end of the input is among the tokens of a source. -/
theorem finish_mem_tokens (source : String) :
    ∃ t ∈ Item.tokens (scan source), t.isFinish := by
  obtain ⟨items, hitems, -⟩ := scanFrom_eq source.toList 1
  refine ⟨Token.finishAt (1 + lineBreaks source.toList), ?_, rfl⟩
  rw [scan, hitems, Item.tokens, List.filterMap_append]
  exact List.mem_append_right _ (.head _)

/-! ### Lines of scope errors -/

/-- All errors that were found are reported on lines of tokens. -/
def Findings.OnLines (M : Token → Prop) (findings : Findings) : Prop :=
  ∀ error ∈ findings.errors, IsLineOf M error.place.line

section Scopes

variable {M : Token → Prop}

namespace Findings.OnLines

variable {a b : Findings}

/-- Where nothing was found there is no error. -/
theorem none : OnLines M .none := nofun

/-- An error that is found under a condition is on the line of its place. -/
theorem errorIf {place : Name} (h : IsLineOf M place.line) (condition : Bool)
    (cause : ScopeCause) : OnLines M (.errorIf condition place cause) := by
  intro error herror
  obtain ⟨-, rfl⟩ := mem_errorIf.1 herror
  exact h

/-- Findings on lines of tokens may be put behind one another. -/
theorem append (ha : a.OnLines M) (hb : b.OnLines M) : (a ++ b).OnLines M := by
  intro error herror
  rw [errors_append] at herror
  exact (List.mem_append.1 herror).elim (ha error) (hb error)

end Findings.OnLines

namespace Context

variable (Γ : Context)

/-- To look for a distance makes no error. -/
theorem onLines_locate (ref : Ref) : (Γ.locate ref).OnLines M := by
  unfold Findings.OnLines
  rw [errors_locate]
  nofun

/-- An error in the reading of a variable is on the line of its name. -/
theorem onLines_read {ref : Ref} (h : ref.name.IsOf M) : (Γ.read ref).OnLines M :=
  (Findings.OnLines.errorIf h.line _ _).append (Γ.onLines_locate ref)

/-- An error in a `this` is on the line of the keyword. -/
theorem onLines_readThis (id : Nat) {line : Nat} (h : IsLineOf M line) :
    (Γ.readThis id line).OnLines M := by
  unfold readThis
  split
  · exact .errorIf h _ _
  · exact Γ.onLines_locate _

/-- An error in a `super` is on the line of the keyword. -/
theorem onLines_readSuper (id : Nat) {line : Nat} (h : IsLineOf M line) :
    (Γ.readSuper id line).OnLines M :=
  ((Findings.OnLines.errorIf h _ _).append (.errorIf h _ _)).append (Γ.onLines_locate _)

/-- An error in a `return` is on the line of the keyword. -/
theorem onLines_returned {line : Nat} (h : IsLineOf M line) (hasValue : Bool) :
    (Γ.returned line hasValue).OnLines M :=
  (Findings.OnLines.errorIf h _ _).append (.errorIf h _ _)

/-- An error in a declaration is on the line of the declared name. -/
theorem onLines_introduce {name : Name} (h : name.IsOf M) : (Γ.introduce name).OnLines M :=
  .errorIf h.line _ _

/-- An error in a parameter is on the line of its name. -/
theorem onLines_parameters {params : List Name} (h : ∀ name ∈ params, name.IsOf M) :
    (Γ.parameters params).OnLines M := by
  induction params generalizing Γ with
  | nil => exact .none
  | cons name rest ih =>
    rw [List.forall_mem_cons] at h
    exact (Γ.onLines_introduce h.1).append (ih _ h.2)

/-- An error in a superclass is on the line of its name. -/
theorem onLines_superclass (className : Name) {superclass : Option Ref}
    (h : OverParent M superclass) : (Γ.superclass className superclass).OnLines M := by
  cases superclass with
  | none => exact .none
  | some ref => exact (Findings.OnLines.errorIf (Name.IsOf.line h) _ _).append (Γ.onLines_read h)

end Context

mutual

/-- Errors in an expression over tokens are on lines of tokens. -/
theorem Expr.Over.onLines (Γ : Context) :
    ∀ e : Expr, e.Over M → (e.resolve Γ).OnLines M
  | .literal _, _ => .none
  | .group inner, h => Expr.Over.onLines Γ inner h
  | .unary _ _ operand, h => Expr.Over.onLines Γ operand h.2
  | .binary _ _ left right, h =>
    (Expr.Over.onLines Γ left h.2.1).append (Expr.Over.onLines Γ right h.2.2)
  | .logical _ _ left right, h =>
    (Expr.Over.onLines Γ left h.2.1).append (Expr.Over.onLines Γ right h.2.2)
  | .var _, h => Γ.onLines_read h
  | .assign ref value, h => (Expr.Over.onLines Γ value h.2).append (Γ.onLines_locate ref)
  | .call callee arguments _, h =>
    (Expr.Over.onLines Γ callee h.1).append (Expr.OverList.onLines Γ arguments h.2.1)
  | .get object _, h => Expr.Over.onLines Γ object h.1
  | .set object _ value, h =>
    (Expr.Over.onLines Γ value h.2.2).append (Expr.Over.onLines Γ object h.1)
  | .this id _, h => Γ.onLines_readThis id h
  | .super id _ _, h => Γ.onLines_readSuper id h.1

/-- Errors in expressions over tokens are on lines of tokens. -/
theorem Expr.OverList.onLines (Γ : Context) :
    ∀ es : List Expr, Expr.OverList M es → (Expr.resolveList Γ es).OnLines M
  | [], _ => .none
  | e :: rest, h => (Expr.Over.onLines Γ e h.1).append (Expr.OverList.onLines Γ rest h.2)

end

/-- Errors in an expression that may be missing are on lines of tokens. -/
theorem OverOption.onLines (Γ : Context) {e : Option Expr} (h : OverOption M e) :
    (resolveOption Γ e).OnLines M := by
  cases e with
  | none => exact .none
  | some e => exact Expr.Over.onLines Γ e h

mutual

/-- Errors in a statement over tokens are on lines of tokens. -/
theorem Stmt.Over.onLines (Γ : Context) : ∀ s : Stmt, s.Over M → (s.resolve Γ).OnLines M
  | .expression e, h => Expr.Over.onLines Γ e h
  | .print e, h => Expr.Over.onLines Γ e h
  | .varDecl _ _, h => (Γ.onLines_introduce h.1).append (h.2.onLines _)
  | .block body, h => Stmt.OverList.onLines _ body h
  | .branch condition yes none, h =>
    (Expr.Over.onLines Γ condition h.1).append (Stmt.Over.onLines Γ yes h.2)
  | .branch condition yes (some no), h =>
    ((Expr.Over.onLines Γ condition h.1).append (Stmt.Over.onLines Γ yes h.2.1)).append
      (Stmt.Over.onLines Γ no h.2.2)
  | .loop condition body, h =>
    (Expr.Over.onLines Γ condition h.1).append (Stmt.Over.onLines Γ body h.2)
  | .funDecl ⟨name, params, body⟩, h =>
    (Γ.onLines_introduce h.1).append (FunDecl.Over.onLines _ _ ⟨name, params, body⟩ h)
  | .result _ _, h => (Γ.onLines_returned h.1 _).append (h.2.onLines Γ)
  | .classDecl name _ methods, h =>
    ((Γ.onLines_introduce h.1).append (Context.onLines_superclass _ name h.2.1)).append
      (FunDecl.OverList.onLines _ methods h.2.2)

/-- Errors in statements over tokens are on lines of tokens. -/
theorem Stmt.OverList.onLines (Γ : Context) :
    ∀ ss : List Stmt, Stmt.OverList M ss → (Stmt.resolveList Γ ss).OnLines M
  | [], _ => .none
  | s :: rest, h => (Stmt.Over.onLines Γ s h.1).append (Stmt.OverList.onLines _ rest h.2)

/-- Errors in a function over tokens are on lines of tokens. -/
theorem FunDecl.Over.onLines (Γ : Context) (body : Body) :
    ∀ f : FunDecl, FunDecl.Over M f → (FunDecl.resolve Γ body f).OnLines M
  | ⟨_, _, statements⟩, h =>
    (Context.onLines_parameters _ h.2.1).append (Stmt.OverList.onLines _ statements h.2.2)

/-- Errors in methods over tokens are on lines of tokens. -/
theorem FunDecl.OverList.onLines (Γ : Context) :
    ∀ fs : List FunDecl, FunDecl.OverList M fs → (FunDecl.resolveList Γ fs).OnLines M
  | [], _ => .none
  | f :: rest, h => (FunDecl.Over.onLines Γ _ f h.1).append (FunDecl.OverList.onLines Γ rest h.2)

end

/-! ### Lines of runtime errors -/

/-- A program over some tokens locates its errors. -/
theorem locates_executeProgram (fuel : Nat) {ss : List Stmt} (h : ∀ s ∈ ss, Stmt.Over M s) :
    Locates M (visitsProgram fuel ss) Any (Eval.executeProgram fuel ss) := by
  induction ss with
  | nil => exact .pure trivial
  | cons s rest ih =>
    rw [List.forall_mem_cons] at h
    exact ((locatesWithin M fuel).statement s h.1).bind fun _ _ => ih h.2

end Scopes

/-- The only function of a new machine is native. -/
theorem Store.over_initial (M : Token → Prop) (sink : Sink) (clock : Nat → Float) :
    (Machine.initial sink clock).store.Over M := by
  refine ⟨fun i x v hv => ?_, fun object x v hv => ?_⟩
  · cases i with
    | zero => exact over_single (v := .native 0 .clock) trivial hv
    | succ i => cases hv
  · cases hv

/-! ### Sources -/

section Sources

variable {source : String} {n : Nat}

/-- The tree of a source is over its tokens. -/
theorem Program.over (source : String) (n : Nat) :
    Stmt.OverList (· ∈ Item.tokens (scan source)) (Program.ofSource source n).statements :=
  (parseTokens_over (finish_mem_tokens source) n).1

/-- What is wrong with a text is reported on its lines, and at tokens if it was read. -/
theorem Program.line_of_mem_diagnostics {d : Diagnostic}
    (hd : d ∈ (Program.ofSource source n).diagnostics) :
    (∃ line cause, d = .lexical line cause ∧ 1 ≤ line ∧ line ≤ 1 + lineBreaks source.toList) ∨
      IsLineOf (· ∈ Item.tokens (scan source)) d.line := by
  rcases List.mem_append.1 hd with hd | hd
  · obtain ⟨item, hitem, hsome⟩ := List.mem_filterMap.1 hd
    cases item with
    | token t => cases hsome
    | bad line cause =>
      cases hsome
      exact .inl ⟨line, cause, rfl, line_of_mem_scan hitem⟩
  · obtain ⟨error, herror, rfl⟩ := List.mem_map.1 hd
    have hplace := (parseTokens_over (finish_mem_tokens source) n).2 error herror
    exact .inr ⟨error.place, hplace, rfl⟩

end Sources

/-- A diagnostic has a line of the source, which is that of a token unless the error is
lexical. -/
def Diagnostic.PointsInto (d : Diagnostic) (source : String) : Prop :=
  1 ≤ d.line ∧ d.line ≤ 1 + lineBreaks source.toList ∧
    ((∃ line cause, d = .lexical line cause) ∨ ∃ t ∈ Item.tokens (scan source), t.line = d.line)

/-- A line of a token is a line of the source. -/
theorem Diagnostic.pointsInto_of_isLineOf {d : Diagnostic} {source : String}
    (h : IsLineOf (· ∈ Item.tokens (scan source)) d.line) : d.PointsInto source :=
  ⟨h.bounds.1, h.bounds.2, .inr h⟩

/-- A refused print is reported on the line of what was to be printed. -/
theorem Point.Refuses.line_eq {q : Point} {refusal : Refusal} {e : Expr} (h : q.Refuses refusal)
    (htask : q.task = .execute (.print e)) : refusal.line = e.line := by
  cases h with
  | value =>
    cases htask
    rfl
  | lineBreak =>
    cases htask
    rfl

/-- Every diagnostic of a source that is run once in a new session has a line of that
source, between one and one more than its line breaks. Unless it is lexical this is the
line of a token, where the end of the input counts. The only other diagnostic is that of
a print that is refused where a literal was to be printed, in parentheses or not, and its
line is zero. -/
theorem diagnostics_point_into_source (sink : Sink) (clock : Nat → Float) (fuel : Nat)
    (source : String) :
    let session := Session.initial sink clock
    ∀ d ∈ (Session.sessionAfter (Session.run fuel source session)).pending,
      d.PointsInto source ∨
        ∃ calls q e refusal, session.Reaches fuel source calls q ∧
          q.task = .execute (.print e) ∧ e.IsLiteral ∧ q.Refuses refusal ∧
          d = .runtime refusal.error ∧ d.line = 0 := by
  intro session d hd
  have hover := Program.over source session.nextId
  by_cases hread : (Program.ofSource source session.nextId).diagnostics = []
  · by_cases hresolve :
      (resolveProgram (Program.ofSource source session.nextId).statements).errors = []
    · rw [Session.run_of_clean fuel source session rfl hread hresolve, Session.execute] at hd
      have hruns := locates_executeProgram fuel hover.mem (session.resolved source).machine
        (Store.over_initial _ sink clock)
      revert hd hruns
      cases Eval.executeProgram fuel (Program.ofSource source session.nextId).statements
        (session.resolved source).machine with
      | ok _ m =>
        intro hd
        cases hd
      | error halt m =>
        cases halt with
        | fault fault =>
          intro hd
          cases hd
        | exhausted =>
          intro hd
          cases hd
        | error error =>
          intro hd hlocated
          obtain rfl : d = .runtime error := List.mem_singleton.1 hd
          rcases hlocated error rfl with hline | ⟨q, hq, e, refusal, htask, hliteral, hrefuses, rfl⟩
          · exact .inl (Diagnostic.pointsInto_of_isLineOf hline)
          · obtain ⟨calls, hreaches⟩ := (Session.mem_visits_iff rfl hread hresolve).1 hq
            have hline : refusal.line = 0 := (hrefuses.line_eq htask).trans hliteral.line_eq
            exact .inr ⟨calls, q, e, refusal, hreaches, htask, hliteral, hrefuses, rfl, hline⟩
    · rw [Session.run_of_scopeError fuel source session rfl hread hresolve, Session.sessionAfter,
        Session.reportAll_eq] at hd
      obtain ⟨error, herror, rfl⟩ := List.mem_map.1 hd
      have hline := Stmt.OverList.onLines .top _ hover error herror
      exact .inl (Diagnostic.pointsInto_of_isLineOf hline)
  · rw [Session.run_of_error fuel source session (.inr hread), Session.sessionAfter,
      Session.read, Session.reportAll_eq] at hd
    rcases Program.line_of_mem_diagnostics hd with ⟨line, cause, rfl, hbounds⟩ | hline
    · exact .inl ⟨hbounds.1, hbounds.2, .inl ⟨line, cause, rfl⟩⟩
    · exact .inl (Diagnostic.pointsInto_of_isLineOf hline)

/-- An error in the second line of a function that is called in the fourth, and a literal
whose print is refused in a method. -/
theorem diagnostics_point_into_source_late :
    let session := Session.initial (.upToLines 0) fun _ => 0
    let late := "fun f() \x7b\n return -nil;\n\x7d\nf();"
    let refused := "class A \x7b\n m() \x7b print ((\"a\")); \x7d\n\x7d\nA().m();"
    (∃ d ∈ (Session.sessionAfter (Session.run 20 late session)).pending,
      d.line = 2 ∧ d.PointsInto late) ∧
    ∃ d ∈ (Session.sessionAfter (Session.run 20 refused session)).pending,
      d.line = 0 ∧ ∃ calls q e refusal, session.Reaches 20 refused calls q ∧
        q.task = .execute (.print e) ∧ e.IsLiteral ∧ q.Refuses refusal ∧
        d = .runtime refusal.error ∧ d.line = 0 := by
  intro session late refused
  obtain ⟨hlate, hrefused⟩ :
      .runtime ⟨2, .operandNotNumber⟩ ∈
        (Session.sessionAfter (Session.run 20 late session)).pending ∧
      .runtime ⟨0, .output "sink full"⟩ ∈
        (Session.sessionAfter (Session.run 20 refused session)).pending := by
    decide +kernel
  refine ⟨⟨_, hlate, rfl, ?_⟩, _, hrefused, rfl, ?_⟩
  · rcases diagnostics_point_into_source (.upToLines 0) (fun _ => 0) 20 late _ hlate with
      hinto | ⟨_, _, _, _, _, _, _, _, _, hzero⟩
    · exact hinto
    · cases hzero
  · rcases diagnostics_point_into_source (.upToLines 0) (fun _ => 0) 20 refused _ hrefused with
      hinto | hliteral
    · exact absurd hinto.1 (by decide)
    · exact hliteral

end Lox
