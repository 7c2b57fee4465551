import Lox.Proofs.Evaluation.Returns
import Lox.Proofs.Session.Construction
import Lox.Proofs.Session.Invariants

/-!
# Returns in the course of a session

A `return` that no function is around is reported before a program is run, so no
statement on the top level ends a call. Every `return` that a run comes to belongs to a
call. The call is over with it: nothing else in the body is begun, and the call yields
the value of the `return`, or, if the body is that of an initializer, the object that
`this` stands for.
-/

namespace Lox

/-! ### What is reported -/

/-- A `return` without a function around it was found. -/
def Findings.ReportsReturn (findings : Findings) : Prop :=
  ∃ error ∈ findings.errors, error.cause = .returnOutsideFunction

namespace Findings.ReportsReturn

variable {a b : Findings}

/-- A report among the first findings is one among all. -/
theorem left (h : a.ReportsReturn) : (a ++ b).ReportsReturn := by
  obtain ⟨error, hmem, hcause⟩ := h
  exact ⟨error, List.mem_append_left _ hmem, hcause⟩

/-- A report among the last findings is one among all. -/
theorem right (h : b.ReportsReturn) : (a ++ b).ReportsReturn := by
  obtain ⟨error, hmem, hcause⟩ := h
  exact ⟨error, List.mem_append_right _ hmem, hcause⟩

end Findings.ReportsReturn

/-- A statement does not change which function it stands in. -/
theorem Context.body_after (Γ : Context) (s : Stmt) : (Γ.after s).body = Γ.body := by
  have hinnermost : ∀ change, (Γ.onInnermost change).body = Γ.body := by
    intro change
    unfold Context.onInnermost
    split <;> rfl
  cases s with
  | varDecl | funDecl | classDecl => exact hinnermost _
  | _ => rfl

mutual

/-- A `return` of a statement on the top level is reported. -/
theorem Stmt.reportsReturn : ∀ (s : Stmt) (Γ : Context), Γ.body = .topLevel →
    s.hasReturn = true → (s.resolve Γ).ReportsReturn
  | .expression _, _, _, h => nomatch h
  | .print _, _, _, h => nomatch h
  | .varDecl _ _, _, _, h => nomatch h
  | .block body, Γ, hΓ, h => Stmt.reportsReturnList body (Γ.enter []) hΓ h
  | .branch _ yes none, Γ, hΓ, h => (yes.reportsReturn Γ hΓ h).right
  | .branch _ yes (some no), Γ, hΓ, h => by
    rw [Stmt.hasReturn, Bool.or_eq_true] at h
    rcases h with h | h
    · exact (yes.reportsReturn Γ hΓ h).right.left
    · exact (no.reportsReturn Γ hΓ h).right
  | .loop _ body, Γ, hΓ, h => (body.reportsReturn Γ hΓ h).right
  | .funDecl _, _, _, h => nomatch h
  | .result line value, Γ, hΓ, _ => by
    have hreturn : (Γ.returned line value.isSome).ReportsReturn := by
      have hmem : ⟨⟨Symbol.returnWord.spelling, line⟩, .returnOutsideFunction⟩ ∈
          (Findings.errorIf (Γ.body = .topLevel) ⟨Symbol.returnWord.spelling, line⟩
            .returnOutsideFunction).errors := by
        simp [Findings.mem_errorIf, hΓ]
      exact Findings.ReportsReturn.left ⟨_, hmem, rfl⟩
    exact hreturn.left
  | .classDecl _ _ _, _, _, h => nomatch h

/-- So is one of several statements, none of which changes the body around the next. -/
theorem Stmt.reportsReturnList : ∀ (ss : List Stmt) (Γ : Context), Γ.body = .topLevel →
    Stmt.hasReturnList ss = true → (Stmt.resolveList Γ ss).ReportsReturn
  | [], _, _, h => nomatch h
  | s :: rest, Γ, hΓ, h => by
    rw [Stmt.hasReturnList, Bool.or_eq_true] at h
    rcases h with h | h
    · exact (s.reportsReturn Γ hΓ h).left
    · exact (Stmt.reportsReturnList rest (Γ.after s) ((Γ.body_after s).trans hΓ) h).right

end

/-- A program for which no `return` is reported has none on the top level. -/
theorem hasReturn_of_resolveProgram {ss : List Stmt}
    (h : ∀ error ∈ (resolveProgram ss).errors, error.cause ≠ .returnOutsideFunction) {s : Stmt}
    (hs : s ∈ ss) : s.hasReturn = false := by
  have hnone : Stmt.hasReturnList ss = false := by
    rw [Bool.eq_false_iff]
    intro hreturn
    obtain ⟨error, hmem, hcause⟩ := Stmt.reportsReturnList ss .top rfl hreturn
    exact h error hmem hcause
  rw [Stmt.hasReturnList_eq_any, List.any_eq_false] at hnone
  simpa using hnone s hs

/-! ### What a call yields -/

/-- What a function that is run on a machine yields after its body ended with a value: that
value, or the object that its own frame binds if it is an initializer. -/
structure Closure.Yields (c : Closure) (m : Machine) (v result : Value) : Prop where
  /-- A function that is no initializer yields the value. -/
  value : c.isInitializer = false → result = v
  /-- An initializer yields the object in its own frame. -/
  object : c.isInitializer = true →
    result.IsObject ∧ m.store.getAt c.env 0 "this" = .ok result

section Calls

variable {w : World} {fuel : Nat} {m m₁ m₂ : Machine} {c : Closure} {vs : List Value} {v : Value}

/-- What a class starts is its initializer, bound to the next object. -/
theorem Callable.start?_cls {cls : Class} (h : (Callable.cls cls).start? m = some (c, m₁)) :
    (∃ method, cls.initializer? = some method ∧ c.isInitializer = method.isInitializer) ∧
      m₁.store.getAt c.env 0 "this" = .ok (.object m.store.fields.size cls) := by
  rw [Callable.start?] at h
  cases hinit : cls.initializer? with
  | none =>
    rw [hinit] at h
    cases h
  | some method =>
    rw [hinit] at h
    cases h
    refine ⟨⟨method, rfl, rfl⟩, Store.getAt_eq_ok.2 ⟨_, _, rfl, ?_⟩⟩
    change (Store.frame (m.store.newObject.2.newFrame method.env _).2
      m.store.newObject.2.frames.size).get? "this" = _
    rw [Store.frame_newFrame_self]
    rfl

/-- What a callable starts is a function, at a later world. -/
theorem Callable.Sound.start? {callable : Callable} (h : callable.Sound w) (hm : m.At w)
    (hstart : callable.start? m = some (c, m₁)) :
    ∃ w', w.Before w' ∧ m₁.At w' ∧ c.IsFunction w' := by
  cases callable with
  | native f => cases hstart
  | function d =>
    cases hstart
    exact ⟨w, .refl w, hm, h⟩
  | cls cls =>
    rw [Callable.start?] at hstart
    cases hinit : cls.initializer? with
    | none =>
      rw [hinit] at hstart
      cases hstart
    | some method =>
      rw [hinit] at hstart
      cases hstart
      obtain ⟨w₁, hw₁, hm₁, hid⟩ := safe_newObject m w (.refl w) hm
      have hobject : Value.Sound w₁ (.object m.store.fields.size cls) :=
        ⟨hid _ _ rfl, Class.Sound.later h hw₁⟩
      have hmethod := (Class.Sound.later h hw₁).findMethod? hinit
      obtain ⟨w₂, hw₂, hm₂, hbound⟩ := safe_bindMethod hmethod hobject trivial _ w₁ (.refl w₁) hm₁
      exact ⟨w₂, hw₁.trans hw₂, hm₂, hbound _ _ rfl⟩

/-- The object of an initializer stays in its frame. -/
theorem Closure.IsFunction.getAt_this (hc : c.IsFunction w) (hinit : c.isInitializer = true)
    (hm : m.At w) {w' : World} (hw : w.Before w') (hm₁ : m₁.At w') :
    ∃ object : Value, object.IsObject ∧ m.store.getAt c.env 0 "this" = .ok object ∧
      m₁.store.getAt c.env 0 "this" = .ok object := by
  obtain ⟨i, rest, object, henv, hthis, hobject⟩ := hc.this hinit
  have hi : i < w.store.frames.size := hc.env.frames i (by rw [henv]; exact .head _)
  have hkept := (hw.keywords i hi _ not_isPlain_this).trans hthis
  rw [hm.store] at hthis
  rw [hm₁.store] at hkept
  exact ⟨object, hobject, Store.getAt_eq_ok.2 ⟨i, rest, henv, hthis⟩,
    Store.getAt_eq_ok.2 ⟨i, rest, henv, hkept⟩⟩

/-- A function whose body ends with a value yields that value, or its object. -/
theorem invoke_of_returned (hc : c.IsFunction w) (hvs : ∀ v ∈ vs, v.Sound w) (hm : m.At w)
    (hbody : Eval.executeAll (Eval.execute fuel) c.decl.body (c.inside vs m) =
      .ok (.returned v) m₁) :
    ∃ result m₂, Eval.invoke (Eval.execute fuel) c vs m = .ok result m₂ ∧
      c.Yields m v result := by
  obtain ⟨w₁, hw₁, hm₁, henv⟩ :=
    safe_newFrame hc.env (sound_parameters hc.plain.params hvs) m w (.refl w) hm
  have hinside : (c.inside vs m).At w₁ := ⟨hm₁.store, hm₁.wellFormed, (henv _ _ rfl).1⟩
  obtain ⟨w₂, hw₂, hm₂, -⟩ := safe_executeAll (safeEvaluation fuel).statement hc.plain.body
    (c.inside vs m) w₁ (.refl w₁) hinside
  rw [hbody, machineAfter] at hm₂
  have hrun : Eval.invoke (Eval.execute fuel) c vs m =
      c.yielded (.returned v) { m₁ with env := m.env } := by
    rw [invoke_apply, hbody]
    rfl
  rw [hrun]
  unfold Closure.yielded
  cases hinit : c.isInitializer with
  | false => exact ⟨v, _, rfl, ⟨fun _ => rfl, fun h => nomatch hinit.symm.trans h⟩⟩
  | true =>
    obtain ⟨object, hobject, hthis, hafter⟩ := hc.getAt_this hinit hm (hw₁.trans hw₂) hm₂
    rw [if_pos rfl, get_bind_apply, hafter]
    exact ⟨object, _, rfl, ⟨fun h => (nomatch hinit.symm.trans h), fun _ => ⟨hobject, hthis⟩⟩⟩

/-- So does a class, whose initializer yields the new object. -/
theorem apply_of_returned {callable : Callable} (hcallable : callable.Sound w)
    (hvs : ∀ v ∈ vs, v.Sound w) (hm : m.At w) (hstart : callable.start? m = some (c, m₁))
    (hbody : Eval.executeAll (Eval.execute fuel) c.decl.body (c.inside vs m₁) =
      .ok (.returned v) m₂) :
    ∃ result m₃, Eval.apply (Eval.execute fuel) callable vs m = .ok result m₃ ∧
      c.Yields m₁ v result := by
  obtain ⟨w', hw, hm₁, hc⟩ := hcallable.start? hm hstart
  obtain ⟨result, m₃, hinvoke, hyields⟩ :=
    invoke_of_returned hc (fun u hu => (hvs u hu).later hw) hm₁ hbody
  rw [Callable.apply_of_start? hstart, bind_of_ok hinvoke]
  cases callable with
  | native f => cases hstart
  | function d => exact ⟨result, m₃, rfl, hyields⟩
  | cls cls =>
    obtain ⟨⟨method, hinit, hflag⟩, hthis⟩ := Callable.start?_cls hstart
    have hname : c.isInitializer = true := by
      have hmethod := Class.Sound.findMethod? hcallable hinit
      obtain ⟨-, -, -, hname⟩ := Class.findMethod?_mem hinit
      exact hflag.trans (hmethod.flag.2 hname)
    have hresult : result = .object m.store.fields.size cls :=
      Except.ok.inj ((hyields.object hname).2.symm.trans hthis)
    exact ⟨result, m₃, by rw [hresult]; rfl, hyields⟩

/-- A frame that a function starts in is still there inside of its own frame. -/
theorem Closure.getAt_enclosing {x : String} (h : m.store.getAt c.env 0 x = .ok v) :
    (c.inside vs m).store.getAt (c.inside vs m).env 1 x = .ok v := by
  obtain ⟨i, rest, henv, hget⟩ := Store.getAt_eq_ok.1 h
  have hi : i < m.store.frames.size := (Store.Binds.of_get? hget).lt_size
  refine Store.getAt_eq_ok.2 ⟨i, rest, henv, ?_⟩
  rw [Closure.inside, Machine.inside, Store.frame_newFrame_of_lt hi]
  exact hget

end Calls

/-! ### The call around a `return` -/

/-- A call is the nearest one around a point: the point is in the body that the call runs,
with no other call in between. -/
def Point.IsCallAround (p q : Point) : Prop := ∃ r, Enters p 1 r ∧ Inside 0 r q

/-- A call ends with a `return` in its body: nothing is begun after it, and the call yields
its value, or the object that `this` stands for in the body of an initializer. -/
structure Point.EndsWith (p q : Point) (v : Value) : Prop where
  /-- The `return` and what is in it are the last points that the call visits. -/
  last : ∃ earlier, p.visits = earlier ++ q.visits
  /-- The call yields the value, or the object if it runs an initializer. -/
  yields : ∃ e result m', p.task = .evaluate e ∧
    Eval.evaluate p.fuel e p.machine = .ok result m' ∧
    ∃ c vs m, p.EntersBody c vs m ∧ (c.isInitializer = false → result = v) ∧
      (c.isInitializer = true →
        result.IsObject ∧ m.store.getAt m.env 1 "this" = .ok result)

/-- The points of a call that is made end with those of the body. -/
theorem visits_call {fuel : Nat} {callee : Expr} {es : List Expr} {m m₁ m₂ m₃ : Machine}
    {f : Value} {vs : List Value} {callable : Callable} {c : Closure}
    (hf : Eval.evaluate fuel callee m = .ok f m₁)
    (hvs : Eval.evaluateAll (Eval.evaluate fuel) es m₁ = .ok vs m₂)
    (hcallable : f.callable? = some callable) (harity : vs.length = callable.arity)
    (hcalls : m₂.calls < Machine.maxCalls)
    (hstart : callable.start? { m₂ with calls := m₂.calls + 1 } = some (c, m₃)) (line : Nat) :
    ∃ earlier, Point.visits ⟨fuel + 1, .evaluate (.call callee es line), m⟩ =
      earlier ++ visitsAll (Eval.execute fuel) (visitsExecute fuel) c.decl.body
        (c.inside vs m₃) := by
  have hcall : visitsCall (Eval.execute fuel) (visitsExecute fuel) f vs m₂ =
      visitsAll (Eval.execute fuel) (visitsExecute fuel) c.decl.body (c.inside vs m₃) := by
    unfold visitsCall
    rw [hcallable]
    dsimp only
    rw [if_neg (not_not.2 harity), if_neg (Nat.not_le.2 hcalls), hstart]
    rfl
  refine ⟨⟨fuel + 1, .evaluate (.call callee es line), m⟩ :: (visitsEvaluate fuel callee m ++
    visitsEach (Eval.evaluate fuel) (visitsEvaluate fuel) es m₁), ?_⟩
  rw [Point.visits, visitsEvaluate, hf, afterOk, hvs, afterOk, hcall]
  simp

/-- A call on a well-formed machine ends with a `return` in its body. -/
theorem Point.IsCallAround.endsWith {p q : Point} {v : Value} (h : p.IsCallAround q)
    (hq : q.Returns v) (hplain : p.task.Plain) {w : World} (hm : p.machine.At w) :
    p.EndsWith q v := by
  obtain ⟨r, henters, hinside⟩ := h
  have hends := hinside.endsCall hq.endsCall
  cases henters with
  | @body fuel m m₁ m₂ m₃ m₄ callee es line f vs callable c before later s hf hvs hcallable harity
      hcalls hstart hbody hbefore =>
    obtain @⟨_, _, _, m₅, _, _, hreturned, inner, hlast⟩ := hends
    have hall := executeAll_of_returned hbefore hreturned later
    obtain ⟨first, hfirst⟩ := visitsAll_of_returned hbefore hreturned later
    rw [← hbody] at hall hfirst
    constructor
    · obtain ⟨earlier, hearlier⟩ := visits_call hf hvs hcallable harity hcalls hstart line
      refine ⟨earlier ++ (first ++ inner), ?_⟩
      rw [hearlier, hfirst, hlast]
      simp
    · have hholds : Point.Holds ⟨fuel + 1, .evaluate (.call callee es line), m⟩ (f :: vs) m₂ :=
        .call hf hvs
      obtain ⟨links, hm₂, hsound⟩ := hholds.sound hplain hm
      rw [List.forall_mem_cons] at hsound
      have hcalling : Machine.At { m₂ with calls := m₂.calls + 1 } ⟨links, m₂.store⟩ :=
        ⟨hm₂.store, hm₂.wellFormed, hm₂.env⟩
      obtain ⟨result, m₆, happly, hyields⟩ := apply_of_returned
        (hsound.1.callable hcallable) hsound.2 hcalling hstart hall
      have hcall : Eval.evaluate (fuel + 1) (.call callee es line) m =
          .ok result { m₆ with calls := m₆.calls - 1 } := by
        refine (bind_of_ok hf).trans ((bind_of_ok hvs).trans ?_)
        rw [callValue_eq_asCall hcallable harity hcalls, asCall_apply, happly]
        rfl
      refine ⟨_, result, _, rfl, hcall, c, vs, _, .intro hf hvs hcallable harity hcalls hstart,
        hyields.value, fun hinit => ?_⟩
      obtain ⟨hobject, hthis⟩ := hyields.object hinit
      exact ⟨hobject, Closure.getAt_enclosing hthis⟩

namespace Session

variable {session : Session} {fuel : Nat} {source : String}

/-- A run that comes to a point in the body of a call comes to the call. -/
theorem Reaches.callAround {n : Nat} {q : Point} {v : Value}
    (h : session.Reaches fuel source n q) (hq : q.Returns v) :
    ∃ k p, session.Reaches fuel source k p ∧ p.IsCallAround q := by
  obtain ⟨herror, hread, hresolve, hstatements, hbefore, hinside⟩ := h
  rcases hinside.last_call with hinside | ⟨k, p, r, hp, henters, hr⟩
  · -- outside of all calls the statement itself would have a `return`
    obtain ⟨hreturned, -⟩ := hinside.endsCall hq.endsCall
    have hnone : Stmt.hasReturn _ = false :=
      hasReturn_of_resolveProgram (by rw [hresolve]; nofun)
        (by rw [hstatements]; exact List.mem_append_right _ (.head _))
    cases goesOn_execute _ _ hnone _ _ _ hreturned
  · exact ⟨k, p, .intro herror hread hresolve hstatements hbefore hp, r, henters, hr⟩

end Session

/-- A `return` never leaves a call behind. In a program that no `return` on the top level is
reported for, no statement on the top level ends a call. And whenever a run of a session
that can come about comes to a `return` whose value is there, some call is around it, and
the nearest call around it ends with it: no statement and no expression of the body is
begun any more, and the call yields just that value, or nil if there is none, or the
object if the body is that of an initializer. -/
theorem return_ends_nearest_call (session : Session) (hs : session.Reachable) (fuel : Nat)
    (source : String) :
    (∀ ss : List Stmt,
      (∀ error ∈ (resolveProgram ss).errors, error.cause ≠ .returnOutsideFunction) →
        ∀ s ∈ ss, ∀ bound, GoesOn (Eval.execute bound s)) ∧
    ∀ n q v, session.Reaches fuel source n q → q.Returns v →
      (∃ k p, session.Reaches fuel source k p ∧ p.IsCallAround q) ∧
      ∀ k p, session.Reaches fuel source k p → p.IsCallAround q → p.EndsWith q v := by
  refine ⟨fun ss hresolve s hss bound => ?_, fun n q v hreaches hq => ?_⟩
  · exact goesOn_execute bound s (hasReturn_of_resolveProgram hresolve hss)
  · refine ⟨hreaches.callAround hq, fun k p hp haround => ?_⟩
    obtain ⟨w, hm⟩ := hs.at
    obtain ⟨hplain, w', -, hm', -⟩ := hp.passes hm
    exact haround.endsWith hq hplain hm'

/-- A `return` in a block of a conditional of a loop ends the call, and the statement after
it is not come to. -/
theorem return_ends_nearest_call_nested :
    let session := Session.initial .unbounded fun _ => 0
    let source := "fun f()\x7bwhile(true)if(true)\x7breturn true;print nil;\x7d\x7df();"
    session.Reachable ∧
    (∀ error ∈ (resolveProgram (Program.ofSource source 0).statements).errors,
      error.cause ≠ .returnOutsideFunction) ∧
    (∀ s ∈ (Program.ofSource source 0).statements, GoesOn (Eval.execute 8 s)) ∧
    ∃ n q k p, session.Reaches 8 source n q ∧ q.Returns (.bool true) ∧
      session.Reaches 8 source k p ∧ p.IsCallAround q ∧ p.EndsWith q (.bool true) := by
  intro session source
  have hs : session.Reachable := .initial _ _
  have hstatements : (Program.ofSource source 0).statements =
      [.funDecl ⟨⟨"f", 1⟩, [], [.loop (.literal (.bool true)) (.branch (.literal (.bool true))
        (.block [.result 1 (some (.literal (.bool true))), .print (.literal .nil)])
        none)]⟩] ++ [.expression (.call (.var ⟨0, ⟨"f", 1⟩⟩) [] 1)] := by
    decide +kernel
  have hread : (Program.ofSource source 0).diagnostics = [] := by
    decide +kernel
  have hresolve : (resolveProgram (Program.ofSource source 0).statements).errors = [] := by
    rw [hstatements]
    rfl
  have hmachine : (session.resolved source).machine = session.machine := by
    rw [session.resolved_machine source hstatements]
    rfl
  have hpath : ∃ n q, session.Reaches 8 source n q ∧ q.Returns (.bool true) := by
    exact ⟨_, _, .intro rfl hread hresolve hstatements (by rw [hmachine]; rfl)
      (.deeper (.deeper (.deeper (.deeper (.deeper .here .expression)
        (.body rfl rfl rfl rfl (by decide) rfl (List.nil_append _).symm rfl))
        (.round .none (by decide) rfl rfl)) (.yes rfl rfl))
        (@Enters.block _ _ _ [] _ _ rfl)), .present rfl⟩
  have hnone : ∀ error ∈ (resolveProgram (Program.ofSource source 0).statements).errors,
      error.cause ≠ .returnOutsideFunction := by
    rw [hresolve]
    intro error herror
    cases herror
  obtain ⟨htop, hreturns⟩ := return_ends_nearest_call session hs 8 source
  obtain ⟨n, q, hreaches, hq⟩ := hpath
  obtain ⟨⟨k, p, hp, haround⟩, hall⟩ := hreturns n q _ hreaches hq
  exact ⟨hs, hnone, fun s hmem => htop _ hnone s hmem 8,
    n, q, k, p, hreaches, hq, hp, haround, hall k p hp haround⟩

end Lox
