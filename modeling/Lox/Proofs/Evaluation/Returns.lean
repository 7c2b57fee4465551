import Lox.Proofs.Evaluation.Visits
import Lox.Proofs.Heap.Points

/-!
# Statements that end a call

A `return` that is executed ends every block, conditional and loop around it, out to the
body of the function: each of them ends the call with the same value, and none of them
begins anything after the `return`. A statement without a `return` of its own ends no
call, whatever functions it declares or calls.
-/

namespace Lox

/-! ### Statements without a `return` -/

mutual

/-- Whether a `return` stands in a statement, outside of the functions and classes that
the statement declares. -/
def Stmt.hasReturn : Stmt → Bool
  | .block body => Stmt.hasReturnList body
  | .branch _ yes none => yes.hasReturn
  | .branch _ yes (some no) => yes.hasReturn || no.hasReturn
  | .loop _ body => body.hasReturn
  | .result _ _ => true
  | _ => false

/-- Whether a `return` stands in one of several statements. -/
def Stmt.hasReturnList : List Stmt → Bool
  | [] => false
  | s :: rest => s.hasReturn || Stmt.hasReturnList rest

end

/-- A `return` stands in several statements if it stands in one of them. -/
theorem Stmt.hasReturnList_eq_any (ss : List Stmt) :
    Stmt.hasReturnList ss = ss.any Stmt.hasReturn := by
  induction ss with
  | nil => rfl
  | cons s rest ih => rw [Stmt.hasReturnList, ih, List.any_cons]

/-- A step that ends no call. -/
def GoesOn (p : Eval Flow) : Prop := ∀ m flow m', p m = .ok flow m' → flow = .normal

namespace GoesOn

variable {α : Type} {p : Eval Flow}

/-- Going on to the next statement ends no call. -/
theorem normal : GoesOn (pure .normal) := by
  intro m flow m' h
  cases h
  rfl

/-- A step that halts does not end a call either. -/
theorem throw (halt : Halt) : GoesOn (MonadExcept.throw halt) := nofun

/-- Only the last of several steps counts. -/
theorem after {first : Eval α} {next : α → Eval Flow} (h : ∀ a, GoesOn (next a)) :
    GoesOn (first >>= next) := by
  intro m flow m' hok
  obtain ⟨a, m₁, -, hnext⟩ := bind_eq_ok hok
  exact h a m₁ flow m' hnext

/-- A step in another environment ends a call only if the step does. -/
theorem inEnv (h : GoesOn p) (env : Env) : GoesOn (Eval.inEnv env p) := by
  intro m flow m' hok
  rw [inEnv_apply] at hok
  cases hp : p { m with env := env } with
  | ok inner m₁ =>
    rw [hp] at hok
    cases hok
    exact h _ _ _ hp
  | error halt m₁ =>
    rw [hp] at hok
    cases hok

/-- One statement goes on to the next, and the last to what follows the list. -/
theorem executeAll {execute : Stmt → Eval Flow} {ss : List Stmt}
    (h : ∀ s ∈ ss, GoesOn (execute s)) : GoesOn (Eval.executeAll execute ss) := by
  induction ss with
  | nil => exact normal
  | cons s rest ih =>
    rw [List.forall_mem_cons] at h
    intro m flow m' hok
    obtain ⟨first, m₁, hfirst, hrest⟩ := bind_eq_ok hok
    have hnormal : first = .normal := h.1 m first m₁ hfirst
    subst hnormal
    exact ih h.2 m₁ flow m' hrest

/-- A loop ends a call only if its body does. -/
theorem repeatWhile {condition : Eval Value} (h : GoesOn p) (n : Nat) :
    GoesOn (Eval.repeatWhile condition p n) := by
  induction n with
  | zero => exact throw _
  | succ n ih =>
    refine after fun v => ?_
    split
    · intro m flow m' hok
      obtain ⟨round, m₁, hround, hrest⟩ := bind_eq_ok hok
      have hnormal : round = .normal := h m round m₁ hround
      subst hnormal
      exact ih m₁ flow m' hrest
    · exact normal

end GoesOn

/-- A statement without a `return` of its own ends no call. -/
theorem goesOn_execute (fuel : Nat) (s : Stmt) (h : s.hasReturn = false) :
    GoesOn (Eval.execute fuel s) := by
  induction fuel generalizing s with
  | zero => exact .throw _
  | succ fuel ih =>
    cases s with
    | expression e => exact .after fun _ => .normal
    | print e => exact .after fun _ => .after fun _ => .after fun _ => .normal
    | varDecl name initializer => exact .after fun _ => .after fun _ => .normal
    | block body =>
      have hbody : ∀ s ∈ body, s.hasReturn = false := by
        rw [Stmt.hasReturn, Stmt.hasReturnList_eq_any, List.any_eq_false] at h
        simpa using h
      exact .after fun _ => .after fun env =>
        (GoesOn.executeAll fun s hs => ih s (hbody s hs)).inEnv env
    | branch condition yes no =>
      refine .after fun v => ?_
      cases no with
      | none =>
        split
        · exact ih yes h
        · exact .normal
      | some other =>
        rw [Stmt.hasReturn, Bool.or_eq_false_iff] at h
        split
        · exact ih yes h.1
        · exact ih other h.2
    | loop condition body => exact (ih body h).repeatWhile fuel
    | funDecl function => exact .after fun _ => .after fun _ => .after fun _ => .normal
    | result line value => cases h
    | classDecl name superclass methods => exact .after fun _ => .normal

/-! ### Statements around a `return` -/

/-- A `return` that is executed: its value is there, and it is nil if none is given. -/
inductive Point.Returns : Point → Value → Prop where
  /-- Without an expression the value is nil. -/
  | absent {fuel line : Nat} {m : Machine} :
      Returns ⟨fuel + 1, .execute (.result line none), m⟩ .nil
  /-- With an expression the value is the one that it has. -/
  | present {fuel line : Nat} {e : Expr} {m m' : Machine} {v : Value}
      (h : Eval.evaluate fuel e m = .ok v m') :
      Returns ⟨fuel + 1, .execute (.result line (some e)), m⟩ v

/-- A statement ends the call in progress with a value, and it begins nothing once the
task of another point is over. -/
inductive Point.EndsCall : Point → Point → Value → Prop where
  /-- The statement ends with the value, and what it visits last is the other point with all
  that is in it. -/
  | intro {fuel : Nat} {s : Stmt} {m m' : Machine} {q : Point} {v : Value}
      (hreturned : Eval.execute fuel s m = .ok (.returned v) m')
      (hlast : ∃ earlier, visitsExecute fuel s m = earlier ++ q.visits) :
      EndsCall ⟨fuel, .execute s, m⟩ q v

/-- A `return` that yields a value ends its call with it. -/
theorem Point.Returns.endsCall {q : Point} {v : Value} (h : q.Returns v) : q.EndsCall q v := by
  cases h with
  | absent => exact .intro rfl ⟨[], rfl⟩
  | @present fuel line e m m' v h =>
    have hreturned : Eval.execute (fuel + 1) (.result line (some e)) m = .ok (.returned v) m' :=
      bind_of_ok h
    exact .intro hreturned ⟨[], rfl⟩

section Around

variable {fuel : Nat} {s : Stmt} {before : List Stmt} {m m₁ m₂ : Machine} {v : Value}

/-- Statements end with the first that ends the call. -/
theorem executeAll_of_returned
    (hbefore : Eval.executeAll (Eval.execute fuel) before m = .ok .normal m₁)
    (hs : Eval.execute fuel s m₁ = .ok (.returned v) m₂) (later : List Stmt) :
    Eval.executeAll (Eval.execute fuel) (before ++ s :: later) m = .ok (.returned v) m₂ := by
  induction before generalizing m with
  | nil =>
    cases hbefore
    rw [List.nil_append, Eval.executeAll, bind_of_ok hs]
    rfl
  | cons a before ih =>
    obtain ⟨flow, m', ha, hrest⟩ := bind_eq_ok hbefore
    rw [List.cons_append, Eval.executeAll, bind_of_ok ha]
    cases flow with
    | normal => exact ih hrest
    | returned u => cases hrest

/-- Nothing is begun after the first statement that ends the call. -/
theorem visitsAll_of_returned
    (hbefore : Eval.executeAll (Eval.execute fuel) before m = .ok .normal m₁)
    (hs : Eval.execute fuel s m₁ = .ok (.returned v) m₂) (later : List Stmt) :
    ∃ earlier, visitsAll (Eval.execute fuel) (visitsExecute fuel) (before ++ s :: later) m =
      earlier ++ visitsExecute fuel s m₁ := by
  induction before generalizing m with
  | nil =>
    cases hbefore
    refine ⟨[], ?_⟩
    rw [List.nil_append, visitsAll, hs]
    exact List.append_nil _
  | cons a before ih =>
    obtain ⟨flow, m', ha, hrest⟩ := bind_eq_ok hbefore
    cases flow with
    | returned u => cases hrest
    | normal =>
      obtain ⟨earlier, hearlier⟩ := ih hrest
      refine ⟨visitsExecute fuel a m ++ earlier, ?_⟩
      rw [List.cons_append, visitsAll, ha, List.append_assoc, ← hearlier]
      rfl

/-- The points of a loop after some rounds stand behind those of the rounds. -/
theorem Rounds.visitsWhile_eq {e : Expr} {n : Nat} (h : Rounds fuel e s n m m₁) (k : Nat) :
    ∃ earlier, visitsWhile (Eval.evaluate fuel e) (Eval.execute fuel s) (visitsEvaluate fuel e)
        (visitsExecute fuel s) (n + k) m =
      earlier ++ visitsWhile (Eval.evaluate fuel e) (Eval.execute fuel s) (visitsEvaluate fuel e)
        (visitsExecute fuel s) k m₁ := by
  induction h generalizing k with
  | none => exact ⟨[], by rw [Nat.zero_add, List.nil_append]⟩
  | @more n m m₁ m₂ m₃ v _ hc hv hb ih =>
    obtain ⟨earlier, hearlier⟩ := ih (k + 1)
    refine ⟨earlier ++ visitsEvaluate fuel e m₁ ++ visitsExecute fuel s m₂, ?_⟩
    rw [Nat.add_assoc, Nat.add_comm 1 k, hearlier, visitsWhile, hc]
    dsimp only [afterOk]
    rw [if_pos hv, hb]
    simp

end Around

section Runs

variable {p q r : Point} {v : Value}

/-- What ends the call inside of a statement ends it as the last thing of the statement. -/
theorem Enters.endsCall (h : Enters p 0 r) (hr : r.EndsCall q v) : p.EndsCall q v := by
  -- Only blocks, conditionals and loops enter statements of the same body.
  cases h with
  | @block fuel m m' before later s hbefore =>
    obtain @⟨_, _, _, m₁, _, _, hreturned, earlier, hlast⟩ := hr
    obtain ⟨first, hfirst⟩ := visitsAll_of_returned hbefore hreturned later
    have hall := executeAll_of_returned hbefore hreturned later
    have hblock : Eval.execute (fuel + 1) (.block (before ++ s :: later)) m =
        onState (fun after => { after with env := m.env }) (.ok (.returned v) m₁) := by
      rw [← hall]
      exact inEnv_apply _ _ _
    refine .intro hblock ⟨⟨fuel + 1, .execute (.block (before ++ s :: later)), m⟩ ::
      (first ++ earlier), ?_⟩
    rw [visitsExecute, hfirst, hlast, List.cons_append, List.append_assoc]
  | @yes fuel m m' e yes no u he hu =>
    obtain @⟨_, _, _, m₁, _, _, hreturned, earlier, hlast⟩ := hr
    have hbranch : Eval.execute (fuel + 1) (.branch e yes no) m = .ok (.returned v) m₁ := by
      refine (bind_of_ok he).trans ?_
      rw [if_pos hu]
      exact hreturned
    refine .intro hbranch ⟨⟨fuel + 1, .execute (.branch e yes no), m⟩ ::
      (visitsEvaluate fuel e m ++ earlier), ?_⟩
    rw [visitsExecute, he, List.cons_append, List.append_assoc, ← hlast]
    simp [afterOk, hu]
  | @no fuel m m' e yes no u he hu =>
    obtain @⟨_, _, _, m₁, _, _, hreturned, earlier, hlast⟩ := hr
    have hbranch : Eval.execute (fuel + 1) (.branch e yes (some no)) m = .ok (.returned v) m₁ := by
      refine (bind_of_ok he).trans ?_
      rw [hu]
      exact hreturned
    refine .intro hbranch ⟨⟨fuel + 1, .execute (.branch e yes (some no)), m⟩ ::
      (visitsEvaluate fuel e m ++ earlier), ?_⟩
    rw [visitsExecute, he, List.cons_append, List.append_assoc, ← hlast]
    simp [afterOk, hu]
  | @round fuel n m m₁ m₂ e s u hrounds hn he hu =>
    obtain @⟨_, _, _, m₃, _, _, hreturned, earlier, hlast⟩ := hr
    obtain ⟨k, hk⟩ : ∃ k, fuel = n + (k + 1) := ⟨fuel - n - 1, by omega⟩
    have hloop := hrounds.repeatWhile_eq (k + 1)
    obtain ⟨first, hfirst⟩ := hrounds.visitsWhile_eq (k + 1)
    rw [← hk] at hloop hfirst
    have hround : Eval.execute (fuel + 1) (.loop e s) m = .ok (.returned v) m₃ := by
      rw [Eval.execute, hloop, Eval.repeatWhile, bind_of_ok he, if_pos hu, bind_of_ok hreturned]
      rfl
    refine .intro hround ⟨⟨fuel + 1, .execute (.loop e s), m⟩ ::
      (first ++ (visitsEvaluate fuel e m₁ ++ earlier)), ?_⟩
    rw [visitsExecute, hfirst, visitsWhile, he]
    simp [afterOk, hu, hreturned, hlast]
  | _ => cases hr

/-- The same for any number of statements around. -/
theorem Inside.endsCall (h : Inside 0 p r) (hr : r.EndsCall q v) : p.EndsCall q v := by
  generalize hn : 0 = n at h
  induction h with
  | here => exact hr
  | @deeper n k p r r' _ henters ih =>
    obtain ⟨rfl, rfl⟩ : n = 0 ∧ k = 0 := by omega
    exact ih (henters.endsCall hr) rfl

end Runs

end Lox
